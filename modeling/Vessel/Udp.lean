import Vessel.Machine
import Vessel.Transport

/-! The sending side of a UDP socket (`runtime/net/udp.c`): `udp_write_to`, the release of a sent
mbuf, `udp_shutdown` and `udp_close`.
A step of a call is a section under `outq_lock`, or what it does before the next one. -/
namespace Vessel.Udp

open Machine Transport Option

/-! ### The socket -/

structure Datagram where
  len : ℕ
  raddr : NetAddr
  deriving DecidableEq

/-- What `udp_write_to` returns. -/
inductive Ret
  | emsgsize
  | edestaddrreq
  | epipe
  | enobufs
  | txError
  | sent (len : ℕ)
  deriving DecidableEq

/-- What is left of a call: of `udp_write_to`, the loop (or the wait in `outq_wq` inside of it),
the allocation of an mbuf and the transmission; of `udp_shutdown`, `__udp_shutdown` and the release
of the waiters; of `udp_close`, the test of `shutdown`, `__udp_shutdown`, and the section under the
lock; and the drop of the socket's own reference. -/
inductive Call
  | entering (d : Datagram)
  | waiting (d : Datagram)
  | reserved (d : Datagram)
  | sending (d : Datagram)
  | shutdown
  | releasing
  | close
  | closeShutdown
  | closing
  | putting
  deriving DecidableEq

/-- What does not change: `udp_get_payload_size`, and how the socket matches and its address. -/
structure Config where
  payloadSize : ℕ
  mtch : Match
  raddr : NetAddr

/-- A call that waits is behind the others that wait.  The three last fields are history. -/
structure Sys where
  shutdown : Bool
  outqFree : Bool
  outqCap : ℤ
  outqLen : ℤ
  calls : List Call
  inFlight : List Datagram
  closed : Bool
  rets : List Ret
  drops : ℕ

def start (cap : ℤ) : Sys := ⟨false,false,cap,0,[],[],false,[],0⟩

def intMax : ℤ := 2147483647

def Call.woken : Call → Call
  | .waiting d => .entering d
  | c => c

/-- `waitq_signal`. -/
def signal : List Call → List Call
  | [] => []
  | .waiting d::cs => .entering d::cs
  | c::cs => c::signal cs

/-- `waitq_release`. -/
def release (cs : List Call) : List Call := cs.map Call.woken

def Call.isWaiting : Call → Bool
  | .waiting _ => true
  | _ => false

def Sys.ret (s : Sys) (r : Ret) : Sys := { s with rets := r::s.rets }

def Sys.call (s : Sys) (c : Call) : Sys := { s with calls := c::s.calls }

/-- `udp_write_to` before it takes the lock. -/
def Sys.udpWriteTo (cfg : Config) (s : Sys) (len : ℕ) (raddr : Option NetAddr) : Sys :=
  if cfg.payloadSize < len then s.ret .emsgsize
  else
    match raddr with
    | some addr => s.call (.entering ⟨len,addr⟩)
    | none =>
      if cfg.mtch = .threeTuple then s.ret .edestaddrreq
      else s.call (.entering ⟨len,cfg.raddr⟩)

/-- `udp_tx_release_mbuf` up to the release of the lock; the reference is dropped later. -/
def Sys.udpTxReleaseMbuf (s : Sys) : Sys :=
  let outqLen := s.outqLen-1
  let calls := if s.shutdown then s.calls else signal s.calls
  { s with
    outqLen := outqLen
    calls := if s.outqFree && outqLen = 0 then .putting::calls else calls }

/-- The next part of a call; `ok` says whether the allocation or the transmission succeeds.  None
for a call that waits, and where a `BUG_ON` stops the process. -/
def Sys.advance (s : Sys) (ok : Bool) : Call → Option Sys
  | .entering d =>
    if s.outqCap ≤ s.outqLen ∧ s.shutdown = false then
      some { s with calls := s.calls++[.waiting d] }
    else if s.shutdown then some (s.ret .epipe)
    else some { s with outqLen := s.outqLen+1, calls := .reserved d::s.calls }
  | .waiting _ => none
  | .reserved d => some (if ok then s.call (.sending d) else s.ret .enobufs)
  | .sending d =>
    some (if ok then { s.ret (.sent d.len) with inFlight := d::s.inFlight } else s.ret .txError)
  | .shutdown =>
    if s.shutdown then none else some { s with shutdown := true, calls := .releasing::s.calls }
  | .releasing => some { s with calls := release s.calls }
  | .close => some (s.call (if s.shutdown then .closing else .closeShutdown))
  | .closeShutdown =>
    if s.shutdown then none else some { s with shutdown := true, calls := .closing::s.calls }
  | .closing =>
    if s.calls.any Call.isWaiting then none
    else
      some { s with
        outqFree := true
        calls := if s.outqLen = 0 then .putting::s.calls else s.calls }
  | .putting => some { s with drops := s.drops+1 }

/-- The next part of call `k`, or the completion of datagram `k`. -/
inductive Event
  | write (len : ℕ) (raddr : Option NetAddr)
  | setBuffers (writeMbufs : ℤ)
  | udpShutdown
  | udpClose
  | act (k : ℕ) (ok : Bool)
  | complete (k : ℕ)

/-- A socket is closed once. -/
def step (cfg : Config) (s : Sys) : Event → Option Sys
  | .write len raddr => some (s.udpWriteTo cfg len raddr)
  | .setBuffers writeMbufs =>
    if writeMbufs ≤ intMax then some { s with outqCap := writeMbufs } else none
  | .udpShutdown => some (s.call .shutdown)
  | .udpClose => if s.closed then none else some { s.call .close with closed := true }
  | .act k ok =>
    match s.calls[k]? with
    | none => none
    | some c => Sys.advance { s with calls := s.calls.eraseIdx k } ok c
  | .complete k =>
    match s.inFlight[k]? with
    | none => none
    | some _ => some (Sys.udpTxReleaseMbuf { s with inFlight := s.inFlight.eraseIdx k })

/-! ### Slots -/

/-- Between reserving a slot and handing over the mbuf. -/
def Call.hasSlot : Call → Bool
  | .reserved _ => true
  | .sending _ => true
  | _ => false

def Call.isPutting (c : Call) : Bool := c = .putting

/-- A part of `udp_close` before the section under the lock. -/
def Call.isClosing : Call → Bool
  | .close => true
  | .closeShutdown => true
  | .closing => true
  | _ => false

/-- The last part of `udp_close` before that. -/
def Call.isLast (c : Call) : Bool := c = .closing

/-- A writer that failed after it had reserved a slot. -/
def Ret.isLost : Ret → Bool
  | .enobufs => true
  | .txError => true
  | _ => false

def Sys.writers (s : Sys) : ℕ := s.calls.countP Call.hasSlot

/-- Drops of the socket's own reference that are due. -/
def Sys.puts (s : Sys) : ℕ := s.calls.countP Call.isPutting

def Sys.lost (s : Sys) : ℕ := s.rets.countP Ret.isLost

theorem countP_cons_toNat {α : Type} (p : α → Bool) (a : α) (as : List α) :
    (a::as).countP p = as.countP p+(p a).toNat := by
  rw [List.countP_cons]
  cases p a <;> rfl

theorem lost_ret (s : Sys) (r : Ret) : (s.ret r).lost = s.lost+r.isLost.toNat :=
  countP_cons_toNat _ _ _

/-- A writer with a slot gets an mbuf and can send it. -/
def Succeeds (s : Sys) : Event → Prop
  | .act k ok => ∀ c ∈ s.calls[k]?, c.hasSlot = true → ok = true
  | _ => True

instance (s : Sys) (e : Event) : Decidable (Succeeds s e) :=
  match e with
  | .write _ _ => inferInstanceAs (Decidable True)
  | .setBuffers _ => inferInstanceAs (Decidable True)
  | .udpShutdown => inferInstanceAs (Decidable True)
  | .udpClose => inferInstanceAs (Decidable True)
  | .act k ok => inferInstanceAs (Decidable (∀ c ∈ s.calls[k]?, c.hasSlot = true → ok = true))
  | .complete _ => inferInstanceAs (Decidable True)

theorem countP_signal {p : Call → Bool} (hp : ∀ d, p (.waiting d) = p (.entering d))
    (cs : List Call) : (signal cs).countP p = cs.countP p := by
  induction cs with
  | nil => rfl
  | cons c cs ih =>
    cases c <;> simp only [signal,List.countP_cons,ih,hp]

theorem countP_release {p : Call → Bool} (hp : ∀ d, p (.waiting d) = p (.entering d))
    (cs : List Call) : (release cs).countP p = cs.countP p := by
  induction cs with
  | nil => rfl
  | cons c cs ih =>
    have hc : p c.woken = p c := by cases c <;> simp [Call.woken,hp]
    simp only [release,List.map_cons,List.countP_cons,hc]
    exact congrArg (·+_) ih

/-! ### What every step keeps -/

section Steps

variable {cfg : Config} {s t : Sys} {c : Call} {ok : Bool}

structure Inv (s : Sys) : Prop where
  slots : s.outqLen = s.inFlight.length+s.writers+s.lost
  cap : s.outqCap ≤ intMax
  len : s.outqLen ≤ intMax
  shut : s.outqFree.toNat+s.calls.countP Call.isLast ≠ 0 → s.shutdown = true
  closers : s.calls.countP Call.isClosing+s.outqFree.toNat = s.closed.toNat
  drops : s.drops+s.puts = if s.outqFree ∧ s.outqLen = 0 then 1 else 0

theorem start_inv {cap : ℤ} (hcap : cap ≤ intMax) : Inv (start cap) where
  slots := rfl
  cap := hcap
  len := by simp [start,intMax]
  shut h := by simp [start] at h
  closers := rfl
  drops := rfl

theorem Inv.congr {calls : List Call} (h : Inv s)
    (hcount : ∀ p : Call → Bool, (∀ d, p (.waiting d) = p (.entering d)) →
      calls.countP p = s.calls.countP p) :
    Inv { s with calls := calls } where
  slots := by
    have := h.slots
    rwa [Sys.writers,← hcount _ fun _ => rfl] at this
  cap := h.cap
  len := h.len
  shut := by
    rw [hcount _ fun _ => rfl]
    exact h.shut
  closers := by
    rw [hcount _ fun _ => rfl]
    exact h.closers
  drops := by
    have := h.drops
    rwa [Sys.puts,← hcount _ fun _ => rfl] at this

attribute [local grind =] Sys.writers Sys.puts Sys.lost Sys.ret Sys.call countP_cons_toNat
  Call.hasSlot Call.isLast Call.isClosing Call.isPutting Ret.isLost

/-- Each part of a call takes its count with it; the section of `udp_close` under the lock makes the
reference due if nothing is in flight. -/
theorem Inv.advance (h : Inv { s with calls := c::s.calls }) (ht : s.advance ok c = some t) :
    Inv t := by
  obtain ⟨hslots,hcap,hlen,hshut,hclosers,hdrops⟩ := h
  cases c with
  | waiting d => cases ht
  | entering d =>
    simp only [Sys.advance] at ht
    split_ifs at ht <;> cases ht <;> constructor <;> grind
  | releasing =>
    cases ht
    have hcount := fun p hp => countP_release (p:=p) hp s.calls
    constructor <;> grind
  | closing =>
    obtain ⟨-,ht⟩ := ite_none_left_eq_some.mp ht
    cases ht
    have hopen : s.outqFree = false := by
      have hone := s.closed.toNat_le
      cases hfree : s.outqFree <;> grind
    by_cases hzero : s.outqLen = 0
    · rw [if_pos hzero]
      constructor <;> grind
    · rw [if_neg hzero]
      constructor <;> grind
  | shutdown | closeShutdown =>
    obtain ⟨-,ht⟩ := ite_none_left_eq_some.mp ht
    cases ht
    constructor <;> grind
  | _ =>
    cases ht
    constructor <;> grind

/-- A datagram has been sent: its slot is free again, and the last one makes the reference due if
the socket is closed. -/
theorem Inv.udpTxReleaseMbuf {d : Datagram} (h : Inv { s with inFlight := d::s.inFlight }) :
    Inv s.udpTxReleaseMbuf := by
  obtain ⟨hslots,hcap,hlen,hshut,hclosers,hdrops⟩ := h
  have hcount := fun p hp => countP_signal (p:=p) hp s.calls
  unfold Sys.udpTxReleaseMbuf
  split_ifs <;> constructor <;> grind

theorem Inv.udpWriteTo (h : Inv s) (len : ℕ) (raddr : Option NetAddr) :
    Inv (s.udpWriteTo cfg len raddr) := by
  obtain ⟨hslots,hcap,hlen,hshut,hclosers,hdrops⟩ := h
  cases raddr <;> simp only [Sys.udpWriteTo] <;> split_ifs <;> constructor <;> grind

theorem step_inv {e : Event} (h : Inv s) (ht : step cfg s e = some t) : Inv t := by
  cases e with
  | write len raddr => exact some.inj ht ▸ h.udpWriteTo len raddr
  | setBuffers writeMbufs =>
    obtain ⟨hcap,ht⟩ := ite_none_right_eq_some.mp ht
    exact some.inj ht ▸ { h with cap := hcap }
  | udpShutdown =>
    cases ht
    obtain ⟨hslots,hcap,hlen,hshut,hclosers,hdrops⟩ := h
    constructor <;> grind
  | udpClose =>
    obtain ⟨hnot,ht⟩ := ite_none_left_eq_some.mp ht
    cases ht
    obtain ⟨hslots,hcap,hlen,hshut,hclosers,hdrops⟩ := h
    constructor <;> grind
  | act k ok =>
    simp only [step] at ht
    split at ht
    case h_1 => cases ht
    case h_2 c hk =>
      obtain ⟨hlt,rfl⟩ := List.getElem?_eq_some_iff.mp hk
      have hfirst := h.congr fun p _ => (List.getElem_cons_eraseIdx_perm hlt).countP_eq p
      exact Inv.advance (s:={ s with calls := s.calls.eraseIdx k }) hfirst ht
  | complete k =>
    simp only [step] at ht
    split at ht
    case h_1 => cases ht
    case h_2 d hk =>
      cases ht
      obtain ⟨hlt,rfl⟩ := List.getElem?_eq_some_iff.mp hk
      have hlength := (List.getElem_cons_eraseIdx_perm hlt).length_eq
      refine Inv.udpTxReleaseMbuf (d:=s.inFlight[k]) { h with slots := ?_ }
      rw [hlength]
      exact h.slots

end Steps

/-! ### Failures -/

section Failures

variable {cfg : Config} {s t : Sys} {e : Event}

theorem udpWriteTo_lost (s : Sys) (len : ℕ) (raddr : Option NetAddr) :
    (s.udpWriteTo cfg len raddr).lost = s.lost := by
  unfold Sys.udpWriteTo
  by_cases hsize : cfg.payloadSize < len
  · rw [if_pos hsize]
    rfl
  · rw [if_neg hsize]
    cases raddr with
    | some addr => rfl
    | none =>
      by_cases hmatch : cfg.mtch = .threeTuple <;> simp only [hmatch] <;> rfl

theorem advance_lost {ok : Bool} {c : Call} (ht : s.advance ok c = some t) :
    t.lost = s.lost+(c.hasSlot && !ok).toNat := by
  cases c with
  | entering d =>
    simp only [Sys.advance] at ht
    split_ifs at ht
    all_goals
      obtain rfl := some.inj ht
      rfl
  | waiting d => cases ht
  | reserved d =>
    obtain rfl := some.inj ht
    cases ok with
    | true => rfl
    | false => exact lost_ret s .enobufs
  | sending d =>
    obtain rfl := some.inj ht
    cases ok with
    | true => rfl
    | false => exact lost_ret s .txError
  | shutdown | closeShutdown | closing =>
    obtain ⟨-,ht⟩ := ite_none_left_eq_some.mp ht
    obtain rfl := some.inj ht
    rfl
  | releasing | close | putting =>
    obtain rfl := some.inj ht
    rfl

theorem step_lost (ht : step cfg s e = some t) :
    (Succeeds s e ∧ t.lost = s.lost) ∨ (¬Succeeds s e ∧ t.lost = s.lost+1) := by
  cases e with
  | write len raddr =>
    obtain rfl := some.inj ht
    exact .inl ⟨trivial,udpWriteTo_lost s len raddr⟩
  | setBuffers writeMbufs =>
    obtain ⟨-,ht⟩ := ite_none_right_eq_some.mp ht
    obtain rfl := some.inj ht
    exact .inl ⟨trivial,rfl⟩
  | udpShutdown =>
    obtain rfl := some.inj ht
    exact .inl ⟨trivial,rfl⟩
  | udpClose =>
    obtain ⟨-,ht⟩ := ite_none_left_eq_some.mp ht
    obtain rfl := some.inj ht
    exact .inl ⟨trivial,rfl⟩
  | act k ok =>
    simp only [step] at ht
    split at ht
    case h_1 => cases ht
    case h_2 c hk =>
      have hlost := advance_lost ht
      have hsucceeds : Succeeds s (.act k ok) ↔ (c.hasSlot = true → ok = true) := by
        simp [Succeeds,hk]
      rw [hsucceeds]
      cases hc : c.hasSlot <;> cases ok <;> rw [hc] at hlost
      · exact .inl ⟨by simp,hlost⟩
      · exact .inl ⟨by simp,hlost⟩
      · exact .inr ⟨by simp,hlost⟩
      · exact .inl ⟨by simp,hlost⟩
  | complete k =>
    simp only [step] at ht
    split at ht
    case h_1 => cases ht
    case h_2 =>
      obtain rfl := some.inj ht
      exact .inl ⟨trivial,rfl⟩

theorem run_lost {evs : List Event} (ht : run (step cfg) s evs = some t) :
    s.lost ≤ t.lost ∧ (t.lost = s.lost ↔ Along (step cfg) Succeeds s evs) := by
  induction evs generalizing s with
  | nil =>
    obtain rfl := some.inj ht
    exact ⟨le_rfl,iff_of_true rfl trivial⟩
  | cons e evs ih =>
    obtain ⟨u,hu,hrun⟩ := bind_eq_some_iff.mp ht
    obtain ⟨hle,hiff⟩ := ih hrun
    have halong : Along (step cfg) Succeeds s (e::evs) ↔
        Succeeds s e ∧ Along (step cfg) Succeeds u evs := by
      simp [Along,hu]
    rw [halong,← hiff]
    obtain ⟨hok,hlost⟩ | ⟨hfail,hlost⟩ := step_lost hu
    · rw [hlost] at hle ⊢
      exact ⟨hle,(and_iff_right hok).symm⟩
    · exact ⟨by omega,iff_of_false (by omega) fun h => hfail h.1⟩

end Failures

/-! ### Sending as a whole -/

/-- What is counted is what is there, exactly as long as no writer with a slot has failed; and the
socket's own reference is dropped once, after `udp_close`, when nothing is counted. -/
theorem send_accounting_iff (cfg : Config) (cap : ℤ) (hcap : cap ≤ intMax) (evs : List Event)
    (s : Sys) (hs : run (step cfg) (start cap) evs = some s) :
    (s.outqLen = s.inFlight.length+s.writers ↔ Along (step cfg) Succeeds (start cap) evs) ∧
      s.drops+s.puts = (if s.outqFree ∧ s.outqLen = 0 then 1 else 0) ∧
      (s.outqFree = true → s.closed = true) ∧ s.outqLen ≤ intMax := by
  have hinv : Inv s := run_keeps (fun h ht => step_inv h ht) (start_inv hcap) hs
  have hlost : s.lost = 0 ↔ Along (step cfg) Succeeds (start cap) evs := (run_lost hs).2
  refine ⟨?_,hinv.drops,fun hfree => ?_,hinv.len⟩
  · rw [← hlost,hinv.slots]
    omega
  · have hclosers := hinv.closers
    by_contra hopen
    rw [hfree,Bool.eq_false_of_not_eq_true hopen] at hclosers
    simp at hclosers

/-- A datagram is sent, the socket is closed, and the completion makes the drop due. -/
theorem send_accounting_iff_close :
    ∃ s ∈ run (step ⟨1472,.fiveTuple,⟨1,2⟩⟩) (start 2048)
        [.write 8 none,.act 0 true,.act 0 true,.act 0 true,.udpClose,.act 0 true,.act 0 true,
          .act 0 true,.complete 0,.act 0 true],
      s.outqLen = s.inFlight.length+s.writers ∧ s.drops+s.puts = 1 ∧ s.drops = 1 := by
  obtain ⟨s,hs,hlen,hdrops⟩ : ∃ s ∈ run (step ⟨1472,.fiveTuple,⟨1,2⟩⟩) (start 2048)
        [.write 8 none,.act 0 true,.act 0 true,.act 0 true,.udpClose,.act 0 true,.act 0 true,
          .act 0 true,.complete 0,.act 0 true],
      (s.outqFree ∧ s.outqLen = 0) ∧ s.drops = 1 := by
    decide +kernel
  obtain ⟨hiff,hput,-⟩ := send_accounting_iff _ 2048 (by decide) _ s hs
  rw [if_pos hlen] at hput
  exact ⟨s,hs,hiff.mpr (by decide +kernel),hput,hdrops⟩

/-- A writer that gets no mbuf returns with its slot: nothing is in flight, and after `udp_close`
the reference is not dropped. -/
theorem slot_lost_without_mbuf :
    ∃ s ∈ run (step ⟨1472,.fiveTuple,⟨1,2⟩⟩) (start 2048)
        [.write 8 none,.act 0 true,.act 0 false,.udpClose,.act 0 true,.act 0 true,.act 0 true],
      s.outqLen = 1 ∧ s.inFlight.length+s.writers = 0 ∧ s.outqFree = true ∧
        s.calls = [] ∧ s.drops = 0 := by
  decide +kernel

end Vessel.Udp
