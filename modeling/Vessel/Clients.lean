import Vessel.Bitmap
import Mathlib.Algebra.Order.Ring.Int
import Mathlib.Data.List.Perm.Basic

/-! Clients of the iokernel: `control.c`, `dp_clients.c`, `ref.h`.
The control thread admits and destroys procs, the data plane attaches and drops them.  They
share the procs and two channels, and what a call does before it sends or after it receives
is seen by its own thread alone, so a call is one step.  A channel is the list of its
messages, oldest first; a send fails when it finds no room. -/
namespace Vessel

open List
namespace Clients

/-- The fields of `struct proc` that the two threads act on.  Procs are numbered in the order
of their creation; `addr` is the block that malloc gave, and a freed block may come again. -/
structure Proc where
  addr : ℕ
  guaranteedCores : BitVec 32
  removed : Bool
  attachFail : Bool
  ref : ℤ
  deriving Inhabited

/-- Commands from the control plane to the data plane. -/
inductive Cmd
  | addClient (p : ℕ)
  | removeClient (p : ℕ)
  deriving DecidableEq

/-- A call of `control_destroy_proc`: was the proc in `dp.clients`, was its ADD message still
on the way, what was its reference count. -/
structure Destroyed where
  proc : ℕ
  listed : Bool
  awaited : Bool
  ref : ℤ

/-- Both threads.  `held` has one entry for each reference of the scheduler, the pollers and
the transmit buffers; the last three fields only record what happened. -/
structure Sys where
  procs : ℕ → Proc
  created : ℕ
  clients : List ℕ
  dpClients : List ℕ
  toData : List Cmd
  toControl : List ℕ
  nrGuaranteed : BitVec 32
  held : List ℕ
  announced : List ℕ
  destroyed : List Destroyed
  handled : List (ℕ × Bool)

def Sys.init : Sys := ⟨fun _ => default,0,[],[],[],[],0,[],[],[],[]⟩

def iokernelMaxProc : ℕ := 1024

/-- `a[i] = a[nr-1]; nr--` on the used part of an array. -/
def swapRemove {α : Type} (l : List α) (i : ℕ) : List α :=
  match l.getLast? with
  | none => l
  | some x => (l.set i x).dropLast

theorem swapRemove_perm {α : Type} {l : List α} {i : ℕ} (hi : i < l.length) :
    (l[i]::swapRemove l i).Perm l := by
  have herase : (swapRemove l i).Perm (l.eraseIdx i) := by
    rcases eq_nil_or_concat l with rfl | ⟨l,x,rfl⟩
    · simp at hi
    · simp only [concat_eq_append,length_append,length_singleton] at hi ⊢
      rw [swapRemove,getLast?_append,getLast?_singleton,Option.some_or]
      dsimp only
      rcases Nat.lt_succ_iff_lt_or_eq.mp hi with hlt | rfl
      · rw [set_append_left _ _ hlt,dropLast_concat,eraseIdx_append_of_lt_length hlt]
        exact (set_perm_cons_eraseIdx hlt x).trans (perm_append_singleton x _).symm
      · simp [eraseIdx_append_of_length_le]
  exact (herase.cons _).trans (getElem_cons_eraseIdx_perm hi)

namespace Sys
variable (s : Sys) (p : ℕ)

def Live : Prop := p < s.created ∧ p ∉ s.destroyed.map Destroyed.proc

instance : Decidable (s.Live p) := inferInstanceAs (Decidable (_ ∧ _))

/-- The procs whose guaranteed cores are counted. -/
def admitted : List ℕ := (List.range s.created).filter fun p => s.Live p

def addr : ℕ := (s.procs p).addr

def cores : BitVec 32 := (s.procs p).guaranteedCores

/-- The place of the pointer to `p` in a table. -/
def find (l : List ℕ) : Option ℕ := l.findIdx? fun q => s.addr q == s.addr p

def modify (f : Proc → Proc) : Sys :=
  { s with procs := Function.update s.procs p (f (s.procs p)) }

/-- A message about `p` is taken from a channel: does the proc still exist? -/
def logged : List (ℕ × Bool) := (p,decide (s.Live p))::s.handled

def procRelease (sent : Bool) : Sys := if sent then { s with toControl := s.toControl++[p] } else s

def procGet : Sys := s.modify p fun x => { x with ref := x.ref+1 }

/-- `proc_put`, with `ref_put`. -/
def procPut (sent : Bool) : Sys :=
  let t := s.modify p fun x => { x with ref := x.ref-1 }
  if (t.procs p).ref = 0 then t.procRelease p sent else t

def controlDestroyProc : Sys :=
  { s with
    nrGuaranteed := s.nrGuaranteed-s.cores p
    destroyed := ⟨p,decide (p ∈ s.dpClients),decide (Cmd.addClient p ∈ s.toData),
      (s.procs p).ref⟩::s.destroyed }

end Sys

/-- What a connecting client brings, and how the calls outside of the two threads end. -/
structure Connect where
  addr : ℕ
  guaranteedCores : BitVec 32
  /-- the header and the memory that it names pass the other checks -/
  sound : Bool
  registered : Bool
  sent : Bool

inductive Event
  | connect (c : Connect)
  | disconnect (i : ℕ) (sent : Bool)
  | controlRecv
  | dataRecv (attached sent : Bool)
  | get (p : ℕ)
  | put (p : ℕ) (sent : Bool)

namespace Sys
variable (allowed : Bitmap) (ncpu : ℕ) (s : Sys) (p : ℕ)

/-- The proc that `control_create_proc` sets up, once every check has passed. -/
def create (c : Connect) : Sys :=
  { s with
    procs := Function.update s.procs s.created ⟨c.addr,c.guaranteedCores,false,false,1⟩
    created := s.created+1
    nrGuaranteed := s.nrGuaranteed+c.guaranteedCores }

/-- `control_create_proc`; the sum is one of `unsigned int`. -/
def controlCreateProc (c : Connect) : Option Sys :=
  if BitVec.ofNat 32 (allowed.popcount ncpu) < c.guaranteedCores+s.nrGuaranteed then none
  else if c.sound then some (s.create c) else none

/-- The new proc goes to the data plane and into the table. -/
def announce : Sys :=
  { s with
    toData := s.toData++[.addClient p]
    clients := s.clients++[p]
    announced := p::s.announced }

def controlAddClient (c : Connect) : Sys :=
  if iokernelMaxProc ≤ s.clients.length then s
  else match s.controlCreateProc allowed ncpu c with
    | none => s
    | some t => if c.registered && c.sent then t.announce s.created
      else t.controlDestroyProc s.created

/-- `control_instruct_dataplane_to_remove_client`, of a proc in the table. -/
def controlInstructDataplaneToRemoveClient (sent : Bool) : Sys :=
  let t := s.modify p fun x => { x with removed := true }
  if sent then { t with toData := t.toData++[.removeClient p] } else t

def controlRemoveClient : Sys :=
  match s.find p s.clients with
  | none => s
  | some i => { s with clients := swapRemove s.clients i }.controlDestroyProc (s.clients.getD i p)

def dpClientsAddClient (attached sent : Bool) : Sys :=
  if attached then { s with dpClients := s.dpClients++[p] }
  else (s.modify p fun x => { x with attachFail := true }).procPut p sent

def dpClientsRemoveClient (sent : Bool) : Sys :=
  match s.find p s.dpClients with
  | none => s
  | some i => { s with dpClients := swapRemove s.dpClients i }.procPut (s.dpClients.getD i p) sent

/-- One call of either thread; `none` where it cannot happen.  malloc gives no block in use,
`control_loop` listens to no client that it has marked as removed, and a reference is taken
by way of `dp.clients` or of another reference. -/
def step : Event → Option Sys
  | .connect c =>
    if ∃ p ∈ s.admitted, s.addr p = c.addr then none else some (s.controlAddClient allowed ncpu c)
  | .disconnect i sent =>
    match s.clients[i]? with
    | none => none
    | some p =>
      if (s.procs p).removed then none
      else some (s.controlInstructDataplaneToRemoveClient p sent)
  | .controlRecv =>
    match s.toControl with
    | [] => none
    | p::rest => some ({ s with toControl := rest, handled := s.logged p }.controlRemoveClient p)
  | .dataRecv attached sent =>
    match s.toData with
    | [] => none
    | .addClient p::rest =>
      some ({ s with toData := rest, handled := s.logged p }.dpClientsAddClient p attached sent)
    | .removeClient p::rest =>
      some ({ s with toData := rest, handled := s.logged p }.dpClientsRemoveClient p sent)
  | .get p =>
    if p ∈ s.dpClients ∨ p ∈ s.held then some ({ s with held := p::s.held }.procGet p) else none
  | .put p sent =>
    if p ∈ s.held then some ({ s with held := s.held.erase p }.procPut p sent) else none

def run : Sys → List Event → Option Sys
  | s,[] => some s
  | s,e::es => (s.step allowed ncpu e).bind fun t => run t es

/-- The condition `ok` is met whenever the run takes a step. -/
def Along (ok : Sys → Event → Prop) : Sys → List Event → Prop
  | _,[] => True
  | s,e::es => ok s e ∧ ∀ t ∈ s.step allowed ncpu e, Along ok t es

instance Along.decidable {ok : Sys → Event → Prop} [∀ s e, Decidable (ok s e)] :
    (s : Sys) → (es : List Event) → Decidable (Along allowed ncpu ok s es)
  | _,[] => inferInstanceAs (Decidable True)
  | _,_::es =>
    haveI : DecidablePred fun t => Along allowed ncpu ok t es := fun t => Along.decidable t es
    inferInstanceAs (Decidable (_ ∧ _))

variable {allowed ncpu s p}

theorem run_invariant {ok : Sys → Event → Prop} {P : Sys → Prop}
    (hstep : ∀ {s t e}, P s → ok s e → s.step allowed ncpu e = some t → P t) {es : List Event}
    {t : Sys} (hs : P s) (hok : Along allowed ncpu ok s es) (ht : run allowed ncpu s es = some t) :
    P t := by
  induction es generalizing s with
  | nil => exact Option.some.inj ht ▸ hs
  | cons e es ih =>
    obtain ⟨u,hu,hrun⟩ := Option.bind_eq_some_iff.mp ht
    exact ih (hstep hs hok.1 hu) (hok.2 u hu) hrun

theorem along_true {es : List Event} : Along allowed ncpu (fun _ _ => True) s es := by
  induction es generalizing s with
  | nil => trivial
  | cons e es ih => exact ⟨trivial,fun _ _ => ih⟩

end Sys

end Clients
end Vessel
