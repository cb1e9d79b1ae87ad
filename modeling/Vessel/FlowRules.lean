import Mathlib.Data.List.Nodup
import Mathlib.Tactic.Common
import Vessel.Machine

/-! Hardware flow rules of listeners (`directpath/common.c`, `mlx5_flow_steering.c`).  Opening and
closing a listener leave work on two lists for one worker thread, which serves all registrations
before any deregistration. -/
namespace Vessel

open Function
namespace FlowRules

/-- A listener is put into the transport table before `register_flow` and taken out of it before
`deregister_flow`. -/
inductive Life where
  | fresh
  | listening
  | opened
  | shut
  | closed
  deriving DecidableEq

/-- The worker between two rounds, with the flow that it has popped, and parked. -/
inductive Worker (F : Type) where
  | awake
  | registering (f : F)
  | deregistering (f : F)
  | parked
  deriving DecidableEq

/-- `listenPorts` is `tcp_listen_ports` and `udp_listen_ports`, indexed by protocol and port;
`hwFlowHandle` is `none` as long as nothing has been stored there; `destroyed` has what
`mlx5dv_dr_rule_destroy` was called with. -/
structure Sys (F K : Type) where
  table : K → Option F
  life : F → Life
  toRegister : List F
  toDeregister : List F
  worker : Worker F
  listenPorts : K → Bool
  hwFlowHandle : F → Option ℕ
  rules : ℕ → Option K
  created : ℕ
  destroyed : List (Option ℕ)
  drops : F → ℕ

variable {F K : Type} [DecidableEq F] [DecidableEq K]

def Sys.init : Sys F K :=
  ⟨fun _ => none,fun _ => .fresh,[],[],.awake,fun _ => false,fun _ => none,fun _ => none,0,[],
    fun _ => 0⟩

def Sys.setLife (s : Sys F K) (f : F) (l : Life) : Sys F K :=
  { s with life := update s.life f l }

/-- `thread_ready(flow_worker_th)`. -/
def Worker.wake : Worker F → Worker F
  | .parked => .awake
  | w => w

def Sys.registerFlow (s : Sys F K) (f : F) : Sys F K :=
  { s with toRegister := f::s.toRegister, worker := s.worker.wake }

def Sys.deregisterFlow (s : Sys F K) (f : F) : Sys F K :=
  { s with toDeregister := f::s.toDeregister, worker := s.worker.wake }

-- the protocol and port of each flow
variable (key : F → K)

def Sys.mlx5RegisterFlow (s : Sys F K) (f : F) : Sys F K :=
  if s.listenPorts (key f) then s
  else { s with
    listenPorts := update s.listenPorts (key f) true
    hwFlowHandle := update s.hwFlowHandle f (some s.created)
    rules := update s.rules s.created (some (key f))
    created := s.created+1 }

def Sys.mlx5DeregisterFlow (s : Sys F K) (f : F) : Sys F K :=
  { s with
    listenPorts := update s.listenPorts (key f) false
    rules := match s.hwFlowHandle f with
      | some h => update s.rules h none
      | none => s.rules
    destroyed := s.hwFlowHandle f::s.destroyed }

/-- `flow_registration_worker`: under the lock it takes the next flow or parks, then it serves the
flow it took. -/
def Sys.work (s : Sys F K) : Option (Sys F K) :=
  match s.worker with
  | .awake =>
    match s.toRegister,s.toDeregister with
    | f::fs,_ => some { s with toRegister := fs, worker := .registering f }
    | [],f::fs => some { s with toDeregister := fs, worker := .deregistering f }
    | [],[] => some { s with worker := .parked }
  | .registering f => some { s.mlx5RegisterFlow key f with worker := .awake }
  | .deregistering f =>
    some { s.mlx5DeregisterFlow key f with
      worker := .awake
      drops := update s.drops f (s.drops f+1) }
  | .parked => none

inductive Event (F : Type) where
  | listen (f : F)
  | register (f : F)
  | shutdown (f : F)
  | deregister (f : F)
  | work

def step (s : Sys F K) : Event F → Option (Sys F K)
  | .listen f =>
    if s.life f = .fresh ∧ s.table (key f) = none then
      some { s.setLife f .listening with table := update s.table (key f) (some f) }
    else none
  | .register f =>
    if s.life f = .listening then some ((s.setLife f .opened).registerFlow f) else none
  | .shutdown f =>
    if s.life f = .opened then
      some { s.setLife f .shut with table := update s.table (key f) none }
    else none
  | .deregister f =>
    if s.life f = .shut then some ((s.setLife f .closed).deregisterFlow f) else none
  | .work => s.work key

/-- A registration is served when the rule of an earlier listener of the port is gone. -/
def InTurn (s : Sys F K) : Event F → Prop
  | .work => ∀ f,s.worker = .registering f → s.listenPorts (key f) = false
  | _ => True

/-! ### Where a flow is -/

/-- What the worker has done about a flow. -/
inductive Phase where
  | none
  | queued
  | registering
  | live (h : ℕ)
  | gone (h : ℕ)

@[grind =] def Phase.handle : Phase → Option ℕ
  | .live h | .gone h => some h
  | _ => .none

@[grind =] def Phase.isGone : Phase → Bool
  | .gone _ => true
  | _ => false

/-- Every flow is in phase `ph f`, rule `h` belongs to flow `rule h` and the mark of port `k` to
flow `port k`. -/
@[grind cases] structure Phased (s : Sys F K) (ph : F → Phase) (rule : ℕ → Option F)
    (port : K → Option F) : Prop where
  early : ∀ f,ph f = .none ↔ s.life f = .fresh ∨ s.life f = .listening
  queued : ∀ f,f ∈ s.toRegister ↔ ph f = .queued
  registering : ∀ f,s.worker = .registering f ↔ ph f = .registering
  gone : ∀ f h,ph f = .gone h → s.life f = .closed
  closing : ∀ f,s.life f = .closed → (ph f).isGone = false →
    f ∈ s.toDeregister ∨ s.worker = .deregistering f
  toDeregister : ∀ f ∈ s.toDeregister,s.life f = .closed ∧ (ph f).isGone = false
  deregistering : ∀ f,s.worker = .deregistering f →
    s.life f = .closed ∧ f ∉ s.toDeregister ∧ ∃ h,ph f = .live h
  nodup : s.toRegister.Nodup ∧ s.toDeregister.Nodup
  handle : ∀ f,s.hwFlowHandle f = (ph f).handle
  rules : ∀ h,s.rules h = (rule h).map key
  rule_live : ∀ h f,rule h = some f ↔ ph f = .live h
  listenPorts : ∀ k,s.listenPorts k = (port k).isSome
  port_key : ∀ k f,port k = some f → key f = k
  port_live : ∀ f h,ph f = .live h → port (key f) = some f
  live_port : ∀ k f,port k = some f → ∃ h,ph f = .live h
  created : ∀ h,s.created ≤ h → rule h = none ∧ some h ∉ s.destroyed
  destroyed : s.destroyed.Nodup ∧ ∀ o ∈ s.destroyed,∃ h,o = some h ∧ h < s.created ∧ rule h = none
  drops : ∀ f,s.drops f = (ph f).isGone.toNat

def Ordered (s : Sys F K) : Prop := ∃ ph rule port,Phased key s ph rule port

variable {key} {s t : Sys F K} {ph : F → Phase} {rule : ℕ → Option F} {port : K → Option F} {f : F}

omit [DecidableEq F] [DecidableEq K] in
theorem phased_init : Phased key (Sys.init : Sys F K) (fun _ => .none) (fun _ => none)
    fun _ => none := by
  constructor <;> simp [Sys.init,Phase.handle,Phase.isGone]

section Flows

omit [DecidableEq K]

theorem phased_table (h : Phased key s ph rule port) {l : Life}
    (hl : s.life f = .fresh ∧ l = .listening ∨ s.life f = .opened ∧ l = .shut)
    (table : K → Option F) : Phased key { s.setLife f l with table := table } ph rule port := by
  unfold Sys.setLife
  exact { h with
    early := by grind -linarith
    gone := by grind -linarith
    closing := by grind -linarith
    toDeregister := by grind -linarith
    deregistering := by grind -linarith }

theorem phased_register (h : Phased key s ph rule port) (hf : s.life f = .listening) :
    Phased key ((s.setLife f .opened).registerFlow f) (update ph f .queued) rule port := by
  unfold Sys.setLife Sys.registerFlow Worker.wake
  constructor <;> grind -linarith

theorem phased_deregister (h : Phased key s ph rule port) (hf : s.life f = .shut) :
    Phased key ((s.setLife f .closed).deregisterFlow f) ph rule port := by
  have hgone : (ph f).isGone = false := by
    cases hp : ph f <;> grind -linarith
  unfold Sys.setLife Sys.deregisterFlow Worker.wake
  exact { h with
    early := by grind -linarith
    registering := by grind -linarith
    gone := by grind -linarith
    closing := by grind -linarith
    toDeregister := by grind -linarith
    deregistering := by grind -linarith
    nodup := by grind -linarith }

theorem phased_popRegister (h : Phased key s ph rule port) (hw : s.worker = .awake) {fs : List F}
    (hl : s.toRegister = f::fs) :
    Phased key { s with toRegister := fs, worker := .registering f }
      (update ph f .registering) rule port := by
  constructor <;> grind -linarith

omit [DecidableEq F] in
theorem phased_popDeregister (h : Phased key s ph rule port) (hw : s.worker = .awake) {fs : List F}
    (hr : s.toRegister = []) (hl : s.toDeregister = f::fs) :
    Phased key { s with toDeregister := fs, worker := .deregistering f } ph rule port := by
  -- the flow was put on the other list before it was put on this one
  have hlive : ∃ n,ph f = .live n := by
    cases hp : ph f <;> grind -linarith
  exact { h with
    registering := by grind -linarith
    closing := by grind -linarith
    toDeregister := by grind -linarith
    deregistering := by grind -linarith
    nodup := by grind -linarith }

omit [DecidableEq F] in
theorem phased_park (h : Phased key s ph rule port) (hw : s.worker = .awake) :
    Phased key { s with worker := .parked } ph rule port := by
  exact { h with
    registering := by grind -linarith
    closing := by grind -linarith
    deregistering := by grind -linarith }

end Flows

theorem phased_created (h : Phased key s ph rule port) (hw : s.worker = .registering f)
    (hfree : s.listenPorts (key f) = false) :
    Phased key { s.mlx5RegisterFlow key f with worker := .awake }
      (update ph f (.live s.created)) (update rule s.created (some f))
      (update port (key f) (some f)) := by
  have hph : ph f = .registering := (h.registering f).mp hw
  have hnew : rule s.created = none := (h.created s.created (Nat.le_refl _)).1
  have hnot : ∀ g n,ph g = .live n → n ≠ s.created := by grind -linarith
  rw [Sys.mlx5RegisterFlow,if_neg (by simp [hfree])]
  constructor
  case live_port =>
    intro k g hk
    by_cases hg : g = f
    · exact ⟨s.created,by simp [hg]⟩
    · rw [update_of_ne hg]
      exact h.live_port k g (by grind -linarith)
  all_goals grind -linarith

theorem phased_destroyed (h : Phased key s ph rule port) (hw : s.worker = .deregistering f) {n : ℕ}
    (hf : ph f = .live n) :
    Phased key { s.mlx5DeregisterFlow key f with
        worker := .awake
        drops := update s.drops f (s.drops f+1) }
      (update ph f (.gone n)) (update rule n none)
      (update port (key f) none) := by
  have hh : s.hwFlowHandle f = some n := by rw [h.handle,hf]; rfl
  rw [Sys.mlx5DeregisterFlow,hh]
  constructor <;> grind -linarith

theorem ordered_work (h : Phased key s ph rule port) (hin : InTurn key s .work)
    (ht : s.work key = some t) : Ordered key t := by
  unfold Sys.work at ht
  split at ht
  · rename_i hw
    split at ht <;> obtain rfl := Option.some.inj ht
    · rename_i hl
      exact ⟨_,_,_,phased_popRegister h hw hl⟩
    · rename_i hr hl
      exact ⟨_,_,_,phased_popDeregister h hw hr hl⟩
    · exact ⟨_,_,_,phased_park h hw⟩
  · rename_i f hw
    obtain rfl := Option.some.inj ht
    exact ⟨_,_,_,phased_created h hw (hin f hw)⟩
  · rename_i f hw
    obtain rfl := Option.some.inj ht
    obtain ⟨n,hf⟩ := (h.deregistering f hw).2.2
    exact ⟨_,_,_,phased_destroyed h hw hf⟩
  · cases ht

theorem ordered_step {e : Event F} (h : Ordered key s) (hin : InTurn key s e)
    (ht : step key s e = some t) : Ordered key t := by
  obtain ⟨ph,rule,port,h⟩ := h
  cases e with
  | listen f =>
    obtain ⟨⟨hf,-⟩,rfl⟩ := by simpa [step] using ht
    exact ⟨_,_,_,phased_table h (Or.inl ⟨hf,rfl⟩) _⟩
  | register f =>
    obtain ⟨hf,rfl⟩ := by simpa [step] using ht
    exact ⟨_,_,_,phased_register h hf⟩
  | shutdown f =>
    obtain ⟨hf,rfl⟩ := by simpa [step] using ht
    exact ⟨_,_,_,phased_table h (Or.inr ⟨hf,rfl⟩) _⟩
  | deregister f =>
    obtain ⟨hf,rfl⟩ := by simpa [step] using ht
    exact ⟨_,_,_,phased_deregister h hf⟩
  | work => exact ordered_work h hin ht

/-! ### Rules and listeners -/

/-- Both lists are empty and the worker is parked. -/
def Sys.Quiet (s : Sys F K) : Prop :=
  s.toRegister = [] ∧ s.toDeregister = [] ∧ s.worker = .parked

/-- `register_flow` has been called, and `deregister_flow` has not. -/
def Sys.Open (s : Sys F K) (f : F) : Prop := s.life f = .opened ∨ s.life f = .shut

omit [DecidableEq F] [DecidableEq K] in
/-- What the worker has done when it has nothing left to do. -/
theorem Phased.quiet (h : Phased key s ph rule port) (hq : s.Quiet) (f : F) :
    (s.Open f ↔ ∃ n,ph f = .live n) ∧ (s.life f = .closed ↔ (ph f).isGone = true) := by
  obtain ⟨hr,hd,hw⟩ := hq
  unfold Sys.Open
  cases hp : ph f <;> cases hl : s.life f <;> grind -linarith

/-- If registrations are served in turn, no rule is destroyed that does not exist, a flow loses its
reference once, after its deregistration, and the rules are those of the open listeners whenever
the worker is done. -/
theorem rules_match_listeners {es : List (Event F)}
    (hin : Machine.Along (step key) (InTurn key) .init es)
    (ht : Machine.run (step key) .init es = some t) :
    (t.destroyed.Nodup ∧ ∀ o ∈ t.destroyed,∃ h < t.created,o = some h) ∧
    (∀ f,t.drops f ≤ 1 ∧ (t.drops f = 1 → t.life f = .closed)) ∧
    (t.Quiet → (∀ f,t.drops f = if t.life f = .closed then 1 else 0) ∧
      ∀ k,(∃ h,t.rules h = some k) ↔ ∃ f,key f = k ∧ t.Open f) := by
  obtain ⟨ph,rule,port,h⟩ : Ordered key t :=
    Machine.run_invariant ordered_step ⟨_,_,_,phased_init⟩ hin ht
  refine ⟨⟨h.destroyed.1,fun o ho => ?_⟩,fun f => ?_,fun hq => ⟨fun f => ?_,fun k => ?_⟩⟩
  · obtain ⟨n,hn,hlt,-⟩ := h.destroyed.2 o ho
    exact ⟨n,hlt,hn⟩
  · rw [h.drops]
    cases hp : ph f with
    | gone n => exact ⟨by simp [Phase.isGone],fun _ => h.gone f n hp⟩
    | none | queued | registering | live => simp [Phase.isGone]
  · rw [h.drops]
    by_cases hgone : (ph f).isGone = true <;> simp [hgone,(h.quiet hq f).2]
  · constructor
    · rintro ⟨n,hn⟩
      rw [h.rules,Option.map_eq_some_iff] at hn
      obtain ⟨f,hf,hk⟩ := hn
      exact ⟨f,hk,(h.quiet hq f).1.mpr ⟨n,(h.rule_live n f).mp hf⟩⟩
    · rintro ⟨f,rfl,hopen⟩
      obtain ⟨n,hn⟩ := (h.quiet hq f).1.mp hopen
      exact ⟨n,by rw [h.rules,(h.rule_live n f).mpr hn]; rfl⟩

def openFlow (f : ℕ) : List (Event ℕ) := [.listen f,.register f]

def closeFlow (f : ℕ) : List (Event ℕ) := [.shutdown f,.deregister f]

/-- Rounds of the worker. -/
def rounds (n : ℕ) : List (Event ℕ) := List.replicate n .work

instance (s : Sys ℕ Unit) : Decidable s.Quiet := inferInstanceAs (Decidable (_ ∧ _))

instance (s : Sys ℕ Unit) : (e : Event ℕ) → Decidable (InTurn (fun _ => ()) s e)
  | .work => match h : s.worker with
    | .registering f => decidable_of_iff (s.listenPorts () = false) (by simp [InTurn,h])
    | .awake | .deregistering _ | .parked => isTrue (by simp [InTurn,h])
  | .listen _ | .register _ | .shutdown _ | .deregister _ => instDecidableTrue

/-- A port is opened again after the worker has dealt with its last listener. -/
theorem rules_match_listeners_reopened :
    ∃ t ∈ Machine.run (step fun _ => ()) (Sys.init : Sys ℕ Unit)
      (openFlow 0++rounds 3++closeFlow 0++rounds 3++openFlow 1++rounds 3),
      t.Quiet ∧ t.destroyed = [some 0] ∧ ∃ h,t.rules h = some () := by
  obtain ⟨t,ht,hq,hd,hl⟩ : ∃ t ∈ Machine.run (step fun _ => ()) (Sys.init : Sys ℕ Unit)
      (openFlow 0++rounds 3++closeFlow 0++rounds 3++openFlow 1++rounds 3),
      t.Quiet ∧ t.destroyed = [some 0] ∧ t.life 1 = .opened := by decide +kernel
  exact ⟨t,ht,hq,hd,((rules_match_listeners (by decide +kernel) ht).2.2 hq).2 () |>.mpr
    ⟨1,rfl,Or.inl hl⟩⟩

/-- A port is closed and opened again before the worker runs.  The registration fails on the mark of
the old listener, whose rule is destroyed next: the new listener has none, and closing it destroys
a rule that was never created. -/
theorem rules_miss_listener : ∃ t ∈ Machine.run (step fun _ => ()) (Sys.init : Sys ℕ Unit)
      (openFlow 0++rounds 3++closeFlow 0++openFlow 1++rounds 5),
    (t.Quiet ∧ t.life 1 = .opened ∧ ∀ h < t.created,t.rules h = none) ∧
      ∃ u ∈ Machine.run (step fun _ => ()) t (closeFlow 1++rounds 2),
        u.destroyed = [none,some 0] := by
  decide +kernel

end FlowRules
end Vessel
