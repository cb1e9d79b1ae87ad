import Vessel.Clients

/-! Who holds a reference to a proc, and which procs exist.
A proc has one reference for its ADD message or its entry in `dp.clients`, and one for each
reference that is held elsewhere; `Outcome` says what a step does once addresses are known to
name procs uniquely. -/
namespace Vessel

open Function List
namespace Clients

/-- The references to `p`, wherever they are. -/
def Sys.tokens (s : Sys) (p : ℕ) : ℕ :=
  s.toData.count (.addClient p)+s.dpClients.count p+s.held.count p

/-- An ADD in front of a REMOVE is of the same proc or of another block. -/
def Sys.Apart (s : Sys) : Cmd → Cmd → Prop
  | .addClient q,.removeClient p => s.addr q = s.addr p → q = p
  | _,_ => True

/-- What holds of every proc: it is in the table while it exists, and it has as many references as
its count says, none once the release has been sent. -/
@[grind cases] structure At (s : Sys) (p : ℕ) : Prop where
  clients : p ∈ s.clients ↔ s.Live p
  announced : p ∈ s.announced → p < s.created
  refs : s.Live p → (s.procs p).ref = s.tokens p
  gone : ¬s.Live p → s.tokens p = 0 ∧ p ∉ s.toControl
  released : p ∈ s.toControl → s.tokens p = 0
  told : .removeClient p ∈ s.toData → p < s.created

/-- A block is that of one proc, and a REMOVE is never ahead of another proc that took the same
block. -/
@[grind cases] structure Apart (s : Sys) (p q : ℕ) : Prop where
  addr_inj : s.Live p → s.Live q → s.addr p = s.addr q → p = q
  listed : .removeClient p ∈ s.toData → q ∈ s.dpClients → s.addr q = s.addr p → q = p

structure Inv (s : Sys) : Prop where
  proc : ∀ p, At s p
  pair : ∀ p q, Apart s p q
  nodup : s.clients.Nodup
  released_nodup : s.toControl.Nodup
  destroyed_lt : ∀ d ∈ s.destroyed, d.proc < s.created
  late : ∀ d ∈ s.destroyed, d.listed = false ∧ d.awaited = false ∧
    (d.ref = 0 ∨ d.ref = 1 ∧ d.proc ∉ s.announced)
  once : (s.destroyed.map Destroyed.proc).Nodup
  apart : s.toData.Pairwise s.Apart

variable {allowed : Bitmap} {ncpu : ℕ} {s t : Sys} {p q : ℕ}

theorem inv_init : Inv .init := by
  refine ⟨fun p => ?_,fun p q => ?_,?_,?_,?_,?_,?_,?_⟩
  · constructor <;> simp [Sys.init,Sys.Live,Sys.tokens]
  · constructor <;> simp [Sys.init,Sys.Live]
  all_goals simp [Sys.init]

theorem procPut_eq (s : Sys) (p : ℕ) (sent : Bool) : s.procPut p sent =
    { s with
      procs := (s.modify p fun x => { x with ref := x.ref-1 }).procs
      toControl := s.toControl++if (s.procs p).ref = 1 ∧ sent then [p] else [] } := by
  have hzero : (s.procs p).ref-1 = 0 ↔ (s.procs p).ref = 1 := by omega
  simp only [Sys.procPut,Sys.procRelease,Sys.modify,update_self,hzero]
  by_cases hone : (s.procs p).ref = 1 <;> cases sent <;> simp [hone]

theorem update_field {β : Type} (field : Proc → β) {f : ℕ → Proc} {x : Proc} :
    field (update f p x q) = if q = p then field x else field (f q) := by
  rw [update_apply,apply_ite field]

attribute [local grind =] update_apply Sys.tokens Sys.Live Sys.addr

theorem tokens_pos (h : .addClient p ∈ s.toData ∨ p ∈ s.dpClients ∨ p ∈ s.held) :
    0 < s.tokens p := by
  grind [count_pos_iff]

theorem Inv.live (h : Inv s) (hp : 0 < s.tokens p ∨ p ∈ s.toControl) : s.Live p := by
  have hpp := h.proc p
  by_contra hn
  grind

theorem Inv.pairwise (h : Inv s) (haddr : ∀ q, t.addr q = s.addr q) :
    s.toData.Pairwise t.Apart := by
  refine h.apart.imp fun {a b} hab => ?_
  cases a <;> cases b <;> simp only [Sys.Apart,haddr] at hab ⊢
  exact hab

theorem Inv.put (h : Inv s) (hp : p ∈ s.held) (sent : Bool) :
    Inv ({ s with held := s.held.erase p }.procPut p sent) := by
  have hpos := count_pos_iff.mpr hp
  have hpp := h.proc p
  rw [procPut_eq]
  refine ⟨fun q => ?_,fun q r => ?_,h.nodup,?_,h.destroyed_lt,h.late,h.once,h.pairwise fun q => ?_⟩
  · have hq := h.proc q
    constructor <;> simp only [Sys.modify,update_field Proc.ref,Sys.tokens,Sys.Live] <;> grind
  · have hqr := h.pair q r
    constructor <;> simp only [Sys.modify,update_field Proc.addr,Sys.addr,Sys.Live] <;> grind
  · have := h.released_nodup
    simp only
    grind [nodup_append]
  · simp only [Sys.modify,Sys.addr,update_field Proc.addr]
    grind

theorem Inv.got (h : Inv s) (hp : 0 < s.tokens p) :
    Inv ({ s with held := p::s.held }.procGet p) := by
  have hpp := h.proc p
  refine ⟨fun q => ?_,fun q r => ?_,h.nodup,h.released_nodup,h.destroyed_lt,h.late,h.once,
    h.pairwise fun q => ?_⟩
  · have hq := h.proc q
    constructor <;> simp only [Sys.procGet,Sys.modify,update_field Proc.ref,Sys.tokens,Sys.Live]
    all_goals grind
  · have hqr := h.pair q r
    constructor <;> simp only [Sys.procGet,Sys.modify,update_field Proc.addr,Sys.addr,Sys.Live]
    all_goals grind
  · simp only [Sys.procGet,Sys.modify,Sys.addr,update_field Proc.addr]
    grind

theorem Inv.create_apart (h : Inv s) (c : Connect) : s.toData.Pairwise (s.create c).Apart := by
  refine h.apart.imp_of_mem fun {a b} ha hb hab => ?_
  match a,b with
  | .addClient q,.removeClient p =>
    have hq := h.proc q
    have hp := h.proc p
    have hpos := count_pos_iff.mpr ha
    simp only [Sys.Apart,Sys.addr,Sys.create,update_field Proc.addr] at hab ⊢
    grind
  | .addClient _,.addClient _ => trivial
  | .removeClient _,_ => trivial

theorem Inv.failed (h : Inv s) (c : Connect) : Inv ((s.create c).controlDestroyProc s.created) := by
  have hd := h.destroyed_lt
  have hnew := h.proc s.created
  refine ⟨fun q => ?_,fun q r => ?_,h.nodup,h.released_nodup,?_,?_,?_,h.create_apart c⟩
  · have hq := h.proc q
    constructor <;> simp only [Sys.controlDestroyProc,Sys.create,update_field Proc.ref,Sys.tokens,
      Sys.Live] <;> grind
  · have hq := h.proc q
    have hr := h.proc r
    have hqr := h.pair q r
    constructor <;> simp only [Sys.controlDestroyProc,Sys.create,update_field Proc.addr,Sys.addr,
      Sys.Live] <;> grind
  · simp only [Sys.controlDestroyProc,Sys.create]
    grind
  · have := h.late
    simp only [Sys.controlDestroyProc,Sys.create,update_self]
    grind
  · have := h.once
    simp only [Sys.controlDestroyProc,Sys.create]
    grind

theorem Inv.admitted (h : Inv s) (c : Connect) (haddr : ∀ p, s.Live p → s.addr p ≠ c.addr) :
    Inv ((s.create c).announce s.created) := by
  have hd := h.destroyed_lt
  have hnew := h.proc s.created
  refine ⟨fun q => ?_,fun q r => ?_,?_,h.released_nodup,?_,?_,h.once,?_⟩
  · have hq := h.proc q
    constructor <;> simp only [Sys.announce,Sys.create,update_field Proc.ref,Sys.tokens,Sys.Live]
    all_goals grind
  · have hq := h.proc q
    have hr := h.proc r
    have hqr := h.pair q r
    have := haddr q
    have := haddr r
    constructor <;> simp only [Sys.announce,Sys.create,update_field Proc.addr,Sys.addr,Sys.Live] at *
    all_goals grind
  · have := h.nodup
    simp only [Sys.announce,Sys.create]
    grind [nodup_append]
  · simp only [Sys.announce,Sys.create]
    grind
  · have := h.late
    simp only [Sys.announce,Sys.create]
    grind
  · refine pairwise_append.mpr ⟨h.create_apart c,pairwise_singleton _ _,
      fun a ha b hb => ?_⟩
    rw [mem_singleton.mp hb]
    cases a <;> trivial

theorem Inv.destroyed (h : Inv s) {rest cs : List ℕ} {log : List (ℕ × Bool)}
    (hctl : s.toControl = p::rest) (hcs : (p::cs).Perm s.clients) :
    Inv (Sys.controlDestroyProc { s with toControl := rest, clients := cs, handled := log } p) := by
  have hpp := h.proc p
  have hnodup := nodup_cons.mp (hcs.nodup_iff.mpr h.nodup)
  have hrest := nodup_cons.mp (hctl ▸ h.released_nodup)
  refine ⟨fun q => ?_,fun q r => ?_,hnodup.2,hrest.2,?_,?_,?_,h.apart⟩
  · have hq := h.proc q
    have hmem := hcs.mem_iff (a:=q)
    constructor <;> simp only [Sys.controlDestroyProc,Sys.tokens,Sys.Live] <;> grind
  · have hqr := h.pair q r
    constructor <;> simp only [Sys.controlDestroyProc,Sys.addr,Sys.Live] <;> grind
  · have := h.destroyed_lt
    simp only [Sys.controlDestroyProc]
    grind
  · have := h.late
    simp only [Sys.controlDestroyProc]
    grind
  · have := h.once
    simp only [Sys.controlDestroyProc]
    grind

theorem Inv.instructed (h : Inv s) (hp : s.Live p) (sent : Bool) :
    Inv (s.controlInstructDataplaneToRemoveClient p sent) := by
  have hpp := h.proc p
  simp only [Sys.controlInstructDataplaneToRemoveClient,Sys.modify]
  have hmark : Inv { s with
      procs := update s.procs p { s.procs p with removed := true } } := by
    refine ⟨fun q => ?_,fun q r => ?_,h.nodup,h.released_nodup,h.destroyed_lt,h.late,h.once,
      h.pairwise fun q => ?_⟩
    · have hq := h.proc q
      constructor <;> simp only [update_field Proc.ref,Sys.tokens,Sys.Live] <;> grind
    · have hqr := h.pair q r
      constructor <;> simp only [update_field Proc.addr,Sys.addr,Sys.Live] <;> grind
    · simp only [Sys.addr,update_field Proc.addr]
      grind
  cases sent with
  | false => exact hmark
  | true =>
    refine ⟨fun q => ?_,fun q r => ?_,h.nodup,h.released_nodup,h.destroyed_lt,h.late,h.once,?_⟩
    · have hq := hmark.proc q
      constructor <;> simp only [Sys.tokens,Sys.Live] at hq ⊢ <;> grind
    · have hr := h.proc r
      have hpr := h.pair p r
      have hqr := hmark.pair q r
      constructor <;> simp only [Sys.addr,Sys.Live] at hqr ⊢ <;> grind
    · refine pairwise_append.mpr ⟨hmark.apart,pairwise_singleton _ _,fun a ha b hb => ?_⟩
      rw [mem_singleton.mp hb]
      cases a with
      | addClient q =>
        have hq := h.proc q
        have hqp := h.pair q p
        have hpos := count_pos_iff.mpr ha
        simp only [Sys.Apart,Sys.addr]
        grind
      | removeClient => trivial

theorem Inv.taken (procs : ℕ → Proc) {m : Cmd} {rest : List Cmd} (ds hs : List ℕ)
    (log : List (ℕ × Bool)) (h : Inv s) (hm : s.toData = m::rest)
    (hprocs : ∀ q, (procs q).ref = (s.procs q).ref ∧ (procs q).addr = s.addr q)
    (htok : ∀ q, rest.count (.addClient q)+ds.count q+hs.count q = s.tokens q)
    (hlist : ∀ q ∈ ds, q ∈ s.dpClients ∨ m = .addClient q) :
    Inv { s with procs := procs, toData := rest, dpClients := ds, held := hs, handled := log } := by
  obtain ⟨hfirst,hapart⟩ := pairwise_cons.mp (hm ▸ h.apart)
  refine ⟨fun q => ?_,fun q r => ?_,h.nodup,h.released_nodup,h.destroyed_lt,h.late,h.once,?_⟩
  · have hq := h.proc q
    have := hprocs q
    have := htok q
    constructor <;> simp only [Sys.tokens,Sys.Live] <;> grind
  · have hqr := h.pair q r
    have := hprocs q
    have := hprocs r
    have := hlist r
    have := hfirst (.removeClient q)
    constructor <;> simp only [Sys.addr,Sys.Live] <;> grind [Sys.Apart]
  · refine hapart.imp fun {a b} hab => ?_
    cases a <;> cases b <;> simp only [Sys.Apart,Sys.addr] at hab ⊢
    grind

/-! ### The outcomes of a step -/

/-- What one step does to the procs, the tables and the channels. -/
inductive Outcome (allowed : Bitmap) (ncpu : ℕ) (s : Sys) : Event → Sys → Prop
  | refused (c) : Outcome allowed ncpu s (.connect c) s
  | failed (c) : Outcome allowed ncpu s (.connect c) ((s.create c).controlDestroyProc s.created)
  | admitted (c) : (∀ p, s.Live p → s.addr p ≠ c.addr) →
      ¬BitVec.ofNat 32 (allowed.popcount ncpu) < c.guaranteedCores+s.nrGuaranteed →
      Outcome allowed ncpu s (.connect c) ((s.create c).announce s.created)
  | instructed {i p : ℕ} (sent) : s.clients[i]? = some p → (s.procs p).removed = false →
      Outcome allowed ncpu s (.disconnect i sent) (s.controlInstructDataplaneToRemoveClient p sent)
  | destroyed {p : ℕ} {rest cs} : s.toControl = p::rest → (p::cs).Perm s.clients →
      Outcome allowed ncpu s .controlRecv
        ({ s with toControl := rest, clients := cs, handled := s.logged p }.controlDestroyProc p)
  | attached {p : ℕ} {rest} (sent) : s.toData = .addClient p::rest →
      Outcome allowed ncpu s (.dataRecv true sent)
        { s with toData := rest, dpClients := s.dpClients++[p], handled := s.logged p }
  | unattached {p : ℕ} {rest} (sent) : s.toData = .addClient p::rest →
      Outcome allowed ncpu s (.dataRecv false sent)
        (({ s with toData := rest, handled := s.logged p }.modify p
          fun x => { x with attachFail := true }).procPut p sent)
  | dropped {p : ℕ} {rest ds} (attached sent) : s.toData = .removeClient p::rest →
      (p::ds).Perm s.dpClients → Outcome allowed ncpu s (.dataRecv attached sent)
        ({ s with toData := rest, dpClients := ds, handled := s.logged p }.procPut p sent)
  | ignored {p : ℕ} {rest} (attached sent) : s.toData = .removeClient p::rest →
      Outcome allowed ncpu s (.dataRecv attached sent)
        { s with toData := rest, handled := s.logged p }
  | got {p : ℕ} : 0 < s.tokens p →
      Outcome allowed ncpu s (.get p) ({ s with held := p::s.held }.procGet p)
  | put {p : ℕ} (sent) : p ∈ s.held →
      Outcome allowed ncpu s (.put p sent) ({ s with held := s.held.erase p }.procPut p sent)

/-- The entry that a search finds, when only `p` itself has its address in the table. -/
theorem find_some {l : List ℕ} {i : ℕ} (hl : ∀ q ∈ l, s.addr q = s.addr p → q = p)
    (hi : s.find p l = some i) : l.getD i p = p ∧ (p::swapRemove l i).Perm l := by
  obtain ⟨hlt,heq,-⟩ := findIdx?_eq_some_iff_getElem.mp hi
  have hp : l[i] = p := hl _ (getElem_mem hlt) (beq_iff_eq.mp heq)
  have hperm := swapRemove_perm hlt
  rw [hp] at hperm
  exact ⟨by simp [getElem?_eq_getElem hlt,hp],hperm⟩

theorem find_none {l : List ℕ} (hi : s.find p l = none) : p ∉ l := by
  intro hp
  have := findIdx?_eq_none_iff.mp hi p hp
  simp at this

theorem mem_admitted : p ∈ s.admitted ↔ s.Live p := by
  simp only [Sys.admitted,mem_filter,mem_range,decide_eq_true_eq,and_iff_right_iff_imp]
  exact fun h => h.1

theorem step_outcome (hs : Inv s) {e : Event} (h : s.step allowed ncpu e = some t) :
    Outcome allowed ncpu s e t := by
  cases e with simp only [Sys.step] at h
  | connect c =>
    split at h
    · cases h
    · rename_i haddr
      have hfresh : ∀ p, s.Live p → s.addr p ≠ c.addr :=
        fun p hp heq => haddr ⟨p,mem_admitted.mpr hp,heq⟩
      cases h
      rw [Sys.controlAddClient,Sys.controlCreateProc]
      split
      · exact .refused c
      · by_cases hlimit : BitVec.ofNat 32 (allowed.popcount ncpu) < c.guaranteedCores+s.nrGuaranteed
        · rw [if_pos hlimit]
          exact .refused c
        · rw [if_neg hlimit]
          cases hsound : c.sound
          · exact .refused c
          · simp only [if_true]
            split
            · exact .admitted c hfresh hlimit
            · exact .failed c
  | disconnect i sent =>
    split at h
    · cases h
    · rename_i p hp
      split at h
      · cases h
      · rename_i hremoved
        cases h
        exact .instructed sent hp ((Bool.not_eq_true _).mp hremoved)
  | controlRecv =>
    split at h
    · cases h
    · rename_i p rest hctl
      cases h
      have hp : s.Live p := hs.live (.inr (hctl ▸ mem_cons_self))
      rw [Sys.controlRemoveClient]
      split
      · rename_i hfind
        exact absurd ((hs.proc p).clients.mpr hp) (find_none hfind)
      · rename_i i hfind
        obtain ⟨hget,hperm⟩ := find_some (fun q hq heq => (hs.pair q p).addr_inj
          ((hs.proc q).clients.mp hq) hp heq) hfind
        rw [hget]
        exact .destroyed hctl hperm
  | dataRecv attached sent =>
    split at h
    · cases h
    · rename_i p rest hdata
      cases h
      rw [Sys.dpClientsAddClient]
      cases attached
      · exact .unattached sent hdata
      · exact .attached sent hdata
    · rename_i p rest hdata
      cases h
      rw [Sys.dpClientsRemoveClient]
      split
      · exact .ignored attached sent hdata
      · rename_i i hfind
        obtain ⟨hget,hperm⟩ := find_some (fun q =>
          (hs.pair p q).listed (hdata ▸ mem_cons_self)) hfind
        rw [hget]
        exact .dropped attached sent hdata hperm
  | get p =>
    split at h
    · rename_i hp
      cases h
      exact .got (tokens_pos (.inr hp))
    · cases h
  | put p sent =>
    split at h
    · rename_i hp
      cases h
      exact .put sent hp
    · cases h

theorem Outcome.inv (h : Inv s) {e : Event} (ho : Outcome allowed ncpu s e t) : Inv t := by
  cases ho with
  | refused c => exact h
  | failed c => exact h.failed c
  | admitted c haddr _ => exact h.admitted c haddr
  | instructed sent hi _ =>
    exact h.instructed ((h.proc _).clients.mp (mem_of_getElem? hi)) sent
  | destroyed hctl hcs => exact h.destroyed hctl hcs
  | attached sent hdata =>
    refine h.taken _ _ _ _ hdata (fun q => ⟨rfl,rfl⟩) (fun q => ?_) fun q hq => ?_
    · simp only [Sys.tokens,hdata,count_append,count_cons,count_nil,beq_iff_eq,
        Cmd.addClient.injEq]
      omega
    · simpa [eq_comm] using hq
  | unattached sent hdata =>
    -- the reference of the message is in hand when `proc_put` is called
    rename_i p rest
    have hinv := h.taken (update s.procs p { s.procs p with attachFail := true })
      s.dpClients (p::s.held) (s.logged p) hdata (fun q => ?_) (fun q => ?_) fun q hq => .inl hq
    · have hput := hinv.put mem_cons_self sent
      simp only [erase_cons_head] at hput
      exact hput
    · simp only [update_field Proc.ref,update_field Proc.addr,Sys.addr]
      grind
    · simp only [Sys.tokens,hdata,count_cons,beq_iff_eq,Cmd.addClient.injEq]
      omega
  | dropped attached sent hdata hds =>
    rename_i p rest ds
    have hinv := h.taken s.procs ds (p::s.held) (s.logged p) hdata
      (fun q => ⟨rfl,rfl⟩) (fun q => ?_) fun q hq =>
        .inl (hds.mem_iff.mp (mem_cons_of_mem _ hq))
    · have hput := hinv.put mem_cons_self sent
      simp only [erase_cons_head] at hput
      exact hput
    · simp only [Sys.tokens,hdata,← hds.count_eq,count_cons,beq_iff_eq,reduceCtorEq,if_false]
      omega
  | ignored attached sent hdata =>
    refine h.taken _ _ _ _ hdata (fun q => ⟨rfl,rfl⟩) (fun q => ?_) fun q hq => .inl hq
    simp [Sys.tokens,hdata]
  | got hp => exact h.got hp
  | put sent hp => exact h.put hp sent

end Clients
end Vessel
