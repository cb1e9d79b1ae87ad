import Vessel.ClientsInvariant

/-! The whole life of a client's proc.
No run destroys a proc twice, or while the data plane can still reach it.  Messages about
procs that are gone appear only when a failed attach crosses a disconnect, and the sum of the
guaranteed cores is kept as long as no admission wraps around. -/
namespace Vessel

open List
namespace Clients

variable {allowed : Bitmap} {ncpu : ℕ} {s t : Sys} {p q : ℕ} {e : Event}

def Cmd.added : Cmd → Option ℕ
  | .addClient p => some p
  | .removeClient _ => none

/-- No disconnect of a client whose attach has failed, no failed attach of a client that has
disconnected. -/
def Uncrossed (s : Sys) : Event → Prop
  | .disconnect i _ => ∀ p ∈ s.clients[i]?, (s.procs p).attachFail = false
  | .dataRecv false _ => ∀ p ∈ s.toData.head?.bind Cmd.added, (s.procs p).removed = false
  | _ => True

instance (s : Sys) : (e : Event) → Decidable (Uncrossed s e)
  | .disconnect i _ => inferInstanceAs (Decidable (∀ p ∈ s.clients[i]?, _))
  | .dataRecv false _ => inferInstanceAs (Decidable (∀ p ∈ s.toData.head?.bind Cmd.added, _))
  | .dataRecv true _ => inferInstanceAs (Decidable True)
  | .connect _ | .controlRecv | .get _ | .put _ _ => inferInstanceAs (Decidable True)

/-- The sum in the admission check fits in 32 bits. -/
def Unwrapped (s : Sys) : Event → Prop
  | .connect c => c.guaranteedCores.uaddOverflow s.nrGuaranteed = false
  | _ => True

instance (s : Sys) : (e : Event) → Decidable (Unwrapped s e)
  | .connect c => inferInstanceAs (Decidable (c.guaranteedCores.uaddOverflow _ = false))
  | .disconnect _ _ | .controlRecv | .dataRecv _ _ | .get _ | .put _ _ =>
    inferInstanceAs (Decidable True)

/-! ### Guaranteed cores -/

def Sys.guaranteedOf (s : Sys) (l : List ℕ) : ℕ := (l.map fun p => (s.cores p).toNat).sum

/-- `nr_guaranteed` is what the clients in the table have, and the machine has it. -/
structure Within (allowed : Bitmap) (ncpu : ℕ) (s : Sys) : Prop where
  sum : s.nrGuaranteed.toNat = s.guaranteedOf s.clients
  le : s.nrGuaranteed.toNat ≤ allowed.popcount ncpu

attribute [local grind =] Sys.Live Sys.cores

theorem guaranteedOf_congr {l : List ℕ} (h : ∀ p ∈ l, t.cores p = s.cores p) :
    t.guaranteedOf l = s.guaranteedOf l := by
  rw [Sys.guaranteedOf,Sys.guaranteedOf,map_congr_left fun p hp => by rw [h p hp]]

theorem guaranteedOf_cons (l : List ℕ) :
    s.guaranteedOf (p::l) = (s.cores p).toNat+s.guaranteedOf l := by
  rw [Sys.guaranteedOf,map_cons,sum_cons,Sys.guaranteedOf]

theorem guaranteedOf_perm {l l' : List ℕ} (h : l.Perm l') :
    s.guaranteedOf l = s.guaranteedOf l' :=
  (h.map _).sum_nat

theorem Within.congr (h : Within allowed ncpu s) (hnr : t.nrGuaranteed = s.nrGuaranteed)
    (hclients : t.clients = s.clients) (hcores : ∀ p ∈ s.clients, t.cores p = s.cores p) :
    Within allowed ncpu t where
  sum := by rw [hnr,hclients,guaranteedOf_congr hcores,h.sum]
  le := hnr ▸ h.le

theorem modify_cores {f : Proc → Proc} (hf : ∀ x, (f x).guaranteedCores = x.guaranteedCores) :
    (s.modify p f).cores q = s.cores q := by
  simp only [Sys.cores,Sys.modify,update_field Proc.guaranteedCores]
  grind -linarith

theorem Within.procPut (h : Within allowed ncpu s) (sent : Bool) :
    Within allowed ncpu (s.procPut p sent) := by
  have hcores : ∀ q, (s.modify p fun x => { x with ref := x.ref-1 }).cores q = s.cores q :=
    fun _ => modify_cores fun _ => rfl
  rw [procPut_eq]
  exact h.congr rfl rfl fun q _ => hcores q

theorem Inv.create_cores (hs : Inv s) (hq : q ∈ s.clients) (c : Connect) :
    (s.create c).cores q = s.cores q := by
  have := hs.proc q
  simp only [Sys.cores,Sys.create,update_field Proc.guaranteedCores]
  grind -linarith

theorem Within.admitted (h : Within allowed ncpu s) (hs : Inv s) {c : Connect}
    (hlimit : ¬BitVec.ofNat 32 (allowed.popcount ncpu) < c.guaranteedCores+s.nrGuaranteed)
    (hwrap : c.guaranteedCores.uaddOverflow s.nrGuaranteed = false) :
    Within allowed ncpu ((s.create c).announce s.created) := by
  have hold : ∀ q ∈ s.clients, ((s.create c).announce s.created).cores q = s.cores q :=
    fun q hq => hs.create_cores hq c
  have hnew : ((s.create c).announce s.created).cores s.created = c.guaranteedCores := by
    simp [Sys.cores,Sys.announce,Sys.create]
  have hsum : (s.nrGuaranteed+c.guaranteedCores).toNat =
      c.guaranteedCores.toNat+s.nrGuaranteed.toNat := by
    rw [BitVec.add_comm]
    exact BitVec.toNat_add_of_not_uaddOverflow (by simpa using hwrap)
  constructor
  · have hperm : ((s.create c).announce s.created).clients.Perm (s.created::s.clients) :=
      perm_append_singleton s.created s.clients
    rw [guaranteedOf_perm hperm,guaranteedOf_cons,hnew,guaranteedOf_congr hold,← h.sum]
    exact hsum
  · calc (s.nrGuaranteed+c.guaranteedCores).toNat
        = (c.guaranteedCores+s.nrGuaranteed).toNat := by rw [BitVec.add_comm]
      _ ≤ (BitVec.ofNat 32 (allowed.popcount ncpu)).toNat :=
          Nat.not_lt.mp fun hlt => hlimit (BitVec.lt_def.mpr hlt)
      _ ≤ allowed.popcount ncpu := Nat.mod_le _ _

theorem Within.destroyed (h : Within allowed ncpu s) {rest cs : List ℕ} {log : List (ℕ × Bool)}
    (hcs : (p::cs).Perm s.clients) : Within allowed ncpu
      (Sys.controlDestroyProc { s with toControl := rest, clients := cs, handled := log } p) := by
  have hsum : s.nrGuaranteed.toNat = (s.cores p).toNat+s.guaranteedOf cs := by
    rw [h.sum,← guaranteedOf_perm hcs,guaranteedOf_cons]
  have hsub : (s.nrGuaranteed-s.cores p).toNat = s.nrGuaranteed.toNat-(s.cores p).toNat :=
    BitVec.toNat_sub_of_le (BitVec.le_def.mpr (by omega))
  have hle := h.le
  constructor
  · calc (s.nrGuaranteed-s.cores p).toNat = s.guaranteedOf cs := by omega
      _ = _ := rfl
  · calc (s.nrGuaranteed-s.cores p).toNat ≤ allowed.popcount ncpu := by omega

theorem Outcome.within (h : Within allowed ncpu s) (hs : Inv s) (ho : Outcome allowed ncpu s e t)
    (hok : Unwrapped s e) : Within allowed ncpu t := by
  cases ho with
  | refused c => exact h
  | failed c =>
    refine h.congr ?_ rfl fun q hq => ?_
    · simp [Sys.controlDestroyProc,Sys.cores,Sys.create,BitVec.add_sub_cancel]
    · exact hs.create_cores hq c
  | admitted c _ hlimit => exact h.admitted hs hlimit hok
  | @instructed i p sent _ _ =>
    have hmod : Within allowed ncpu (s.modify p fun x => { x with removed := true }) :=
      h.congr rfl rfl fun _ _ => modify_cores fun _ => rfl
    cases sent <;> exact ⟨hmod.sum,hmod.le⟩
  | destroyed _ hcs => exact h.destroyed hcs
  | attached sent _ => exact h.congr rfl rfl fun _ _ => rfl
  | unattached sent _ =>
    refine Within.procPut ?_ sent
    exact h.congr rfl rfl fun _ _ => modify_cores fun _ => rfl
  | dropped attached sent _ _ =>
    refine Within.procPut ?_ sent
    exact h.congr rfl rfl fun _ _ => rfl
  | ignored attached sent _ => exact h.congr rfl rfl fun _ _ => rfl
  | got _ => exact h.congr rfl rfl fun _ _ => modify_cores fun _ => rfl
  | put sent _ =>
    refine Within.procPut ?_ sent
    exact h.congr rfl rfl fun _ _ => rfl

/-! ### Messages about procs that are gone -/

/-- A REMOVE on its way is about a client that the data plane has or is about to have. -/
@[grind cases] structure Calm (s : Sys) (p : ℕ) : Prop where
  marked : .removeClient p ∈ s.toData → (s.procs p).removed = true
  once : s.toData.count (.removeClient p) ≤ 1
  uncrossed : (s.procs p).removed = true → (s.procs p).attachFail = false
  known : s.Live p → (s.procs p).attachFail = false →
    (s.procs p).removed = false ∨ .removeClient p ∈ s.toData →
      0 < s.toData.count (.addClient p)+s.dpClients.count p
  live : .removeClient p ∈ s.toData → s.Live p

structure AllCalm (s : Sys) : Prop where
  proc : ∀ p, Calm s p
  handled : ∀ m ∈ s.handled, m.2 = true

theorem calm_init : AllCalm .init := by
  refine ⟨fun p => ?_,by simp [Sys.init]⟩
  refine ⟨by simp [Sys.init],by simp [Sys.init],by rintro ⟨⟩,by simp [Sys.init,Sys.Live],
    by simp [Sys.init]⟩

attribute [local grind =] Sys.tokens

theorem Outcome.calm (h : AllCalm s) (hs : Inv s) (ho : Outcome allowed ncpu s e t)
    (hok : Uncrossed s e) : AllCalm t := by
  have hhandled := h.handled
  cases ho with
  | refused c => exact h
  | failed c =>
    refine ⟨fun q => ?_,hhandled⟩
    have hq := h.proc q
    have hqs := hs.proc q
    constructor <;> simp only [Sys.controlDestroyProc,Sys.create,Sys.Live,update_field Proc.removed,
      update_field Proc.attachFail] <;> grind -linarith
  | admitted c _ hlimit =>
    refine ⟨fun q => ?_,hhandled⟩
    have hq := h.proc q
    have hqs := hs.proc q
    constructor <;> simp only [Sys.announce,Sys.create,Sys.Live,update_field Proc.removed,
      update_field Proc.attachFail] <;> grind -linarith
  | @instructed i p sent hi hremoved =>
    have hp : s.Live p := (hs.proc _).clients.mp (mem_of_getElem? hi)
    have hfail := hok _ hi
    have hpp := h.proc p
    simp only [Sys.controlInstructDataplaneToRemoveClient,Sys.modify]
    cases sent <;> refine ⟨fun q => ?_,hhandled⟩ <;> have hq := h.proc q
    all_goals constructor <;> simp only [Bool.false_eq_true,if_false,if_true,Sys.Live,
      update_field Proc.removed,update_field Proc.attachFail] <;> grind -linarith
  | @destroyed p rest cs hctl hcs =>
    have hp := h.proc p
    have hps := hs.proc p
    have hlive : s.Live p := hs.live (.inr (hctl ▸ mem_cons_self))
    refine ⟨fun q => ?_,forall_mem_cons.mpr ⟨decide_eq_true hlive,hhandled⟩⟩
    have hq := h.proc q
    constructor <;> simp only [Sys.controlDestroyProc,Sys.Live] <;> grind -linarith
  | @attached p rest sent hdata =>
    have hlive : s.Live p := hs.live (.inl (tokens_pos (.inl (hdata ▸ mem_cons_self))))
    refine ⟨fun q => ?_,forall_mem_cons.mpr ⟨decide_eq_true hlive,hhandled⟩⟩
    have hq := h.proc q
    constructor <;> simp only [Sys.Live] <;> grind -linarith
  | @unattached p rest sent hdata =>
    have hlive : s.Live p := hs.live (.inl (tokens_pos (.inl (hdata ▸ mem_cons_self))))
    have hstay : (s.procs p).removed = false := hok p (by rw [hdata]; rfl)
    rw [procPut_eq]
    refine ⟨fun q => ?_,forall_mem_cons.mpr ⟨decide_eq_true hlive,hhandled⟩⟩
    have hq := h.proc q
    constructor <;> simp only [Sys.modify,Sys.Live,update_field Proc.removed,
      update_field Proc.attachFail] <;> grind -linarith
  | @dropped p rest ds attached sent hdata hds =>
    have hp := h.proc p
    rw [procPut_eq]
    refine ⟨fun q => ?_,forall_mem_cons.mpr ⟨decide_eq_true ?_,hhandled⟩⟩
    · have hq := h.proc q
      have hcount := hds.count_eq q
      constructor <;> simp only [Sys.modify,Sys.Live,update_field Proc.removed,
        update_field Proc.attachFail] <;> grind -linarith
    · grind -linarith
  | @ignored p rest attached sent hdata =>
    have hp := h.proc p
    refine ⟨fun q => ?_,forall_mem_cons.mpr ⟨decide_eq_true ?_,hhandled⟩⟩
    · have hq := h.proc q
      constructor <;> simp only [Sys.Live] <;> grind -linarith
    · grind -linarith
  | got _ =>
    refine ⟨fun q => ?_,hhandled⟩
    have hq := h.proc q
    constructor <;> simp only [Sys.procGet,Sys.modify,Sys.Live,update_field Proc.removed,
      update_field Proc.attachFail] <;> grind -linarith
  | put sent _ =>
    rw [procPut_eq]
    refine ⟨fun q => ?_,hhandled⟩
    have hq := h.proc q
    constructor <;> simp only [Sys.modify,Sys.Live,update_field Proc.removed,
      update_field Proc.attachFail] <;> grind -linarith

/-! ### Whole runs -/

theorem run_inv {es : List Event} (h : Sys.run allowed ncpu .init es = some s) : Inv s :=
  Sys.run_invariant (fun hs _ hstep => (step_outcome hs hstep).inv hs) inv_init Sys.along_true h

theorem run_calm {es : List Event} (h : Sys.run allowed ncpu .init es = some s)
    (hok : Sys.Along allowed ncpu Uncrossed .init es) : AllCalm s :=
  (Sys.run_invariant (P:=fun s => Inv s ∧ AllCalm s)
    (fun hs hok hstep =>
      ⟨(step_outcome hs.1 hstep).inv hs.1,(step_outcome hs.1 hstep).calm hs.2 hs.1 hok⟩)
    ⟨inv_init,calm_init⟩ hok h).2

theorem run_within {es : List Event} (h : Sys.run allowed ncpu .init es = some s)
    (hok : Sys.Along allowed ncpu Unwrapped .init es) : Within allowed ncpu s :=
  (Sys.run_invariant (P:=fun s => Inv s ∧ Within allowed ncpu s)
    (fun hs hok hstep =>
      ⟨(step_outcome hs.1 hstep).inv hs.1,(step_outcome hs.1 hstep).within hs.2 hs.1 hok⟩)
    ⟨inv_init,⟨rfl,Nat.zero_le _⟩⟩ hok h).2

theorem Inv.clients_perm (h : Inv s) : s.clients.Perm s.admitted := by
  refine (perm_ext_iff_of_nodup h.nodup (nodup_range.filter _)).mpr fun p => ?_
  exact (h.proc p).clients.trans mem_admitted.symm

/-- A proc is destroyed once, when the data plane has dropped it and nobody refers to it, or
right after its creation when the data plane was never told of it.  Without a failed attach
that crosses a disconnect every message is about a proc that exists, and without a sum that
wraps around the guaranteed cores are counted and available. -/
theorem lifecycle (allowed : Bitmap) (ncpu : ℕ) {es : List Event} {s : Sys}
    (h : Sys.run allowed ncpu .init es = some s) :
    (s.destroyed.map Destroyed.proc).Nodup ∧
    (∀ d ∈ s.destroyed, d.listed = false ∧ d.awaited = false ∧
      (d.ref = 0 ∨ d.ref = 1 ∧ d.proc ∉ s.announced)) ∧
    (Sys.Along allowed ncpu Uncrossed .init es → ∀ m ∈ s.handled, m.2 = true) ∧
    (Sys.Along allowed ncpu Unwrapped .init es →
      s.nrGuaranteed.toNat = s.guaranteedOf s.admitted ∧
      s.nrGuaranteed.toNat ≤ allowed.popcount ncpu) := by
  have hinv := run_inv h
  refine ⟨hinv.once,hinv.late,fun hok => (run_calm h hok).handled,fun hok => ?_⟩
  have hwithin := run_within h hok
  exact ⟨by rw [hwithin.sum,guaranteedOf_perm hinv.clients_perm],hwithin.le⟩

/-- A client connects to a machine of four cores. -/
def client (addr : ℕ) (cores : BitVec 32) (registered : Bool) : Event :=
  .connect ⟨addr,cores,true,registered,true⟩

def fourCores (es : List Event) : Option Sys := Sys.run (fun _ => true) 4 .init es

/-- Two clients attach, the first is referred to while it disconnects; a third fails to
register, and a fourth takes the block of the first. -/
def fourClients : List Event :=
  [client 100 2 true,client 200 1 true,.dataRecv true true,.get 0,.dataRecv true true,
    .disconnect 0 true,.dataRecv true true,.put 0 true,.controlRecv,client 100 2 false,
    client 100 3 true,.dataRecv true true]

theorem lifecycle_four_clients : ∃ s, fourCores fourClients = some s ∧
    (s.destroyed.map Destroyed.proc).Nodup ∧
    (∀ d ∈ s.destroyed, d.listed = false ∧ d.awaited = false ∧
      (d.ref = 0 ∨ d.ref = 1 ∧ d.proc ∉ s.announced)) ∧
    (∀ m ∈ s.handled, m.2 = true) ∧ s.nrGuaranteed.toNat = s.guaranteedOf s.admitted ∧
    s.nrGuaranteed.toNat ≤ Bitmap.popcount (fun _ => true) 4 := by
  obtain ⟨s,hs⟩ := Option.isSome_iff_exists.mp
    (show (fourCores fourClients).isSome = true by decide +kernel)
  obtain ⟨honce,hlate,hcalm,hwithin⟩ := lifecycle (fun _ => true) 4 hs
  exact ⟨s,hs,honce,hlate,hcalm (by decide +kernel),hwithin (by decide +kernel)⟩

/-- A client that fails to register is destroyed with its reference.  A disconnect that
crosses a failed attach leaves a message about a proc that is gone.  Three cores and almost
`2^32` more count as one. -/
theorem lifecycle_departs :
    (fourCores [client 100 2 false]).map (fun s => s.destroyed.map Destroyed.ref) = some [1] ∧
    (fourCores [client 100 2 true,.disconnect 0 true,.dataRecv false true,.controlRecv,
      .dataRecv true true]).map (fun s => s.handled.head?) = some (some (0,false)) ∧
    (fourCores [client 100 3 true,client 200 4294967294 true]).map
      (fun s => (s.nrGuaranteed.toNat,s.guaranteedOf s.admitted)) = some (1,4294967297) := by
  decide +kernel

end Clients
end Vessel
