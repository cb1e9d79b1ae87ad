import Mathlib.Data.List.Basic
import Mathlib.Tactic.Common
import Vessel.Machine

/-! The cxltp handshake: dialers and the listener of a port meet in one slot of shared memory, in
which each side leaves the ring it will write to. -/
namespace Vessel

open Function
namespace CxltpDial

variable {ι : Type} [DecidableEq ι]

inductive ClientState where
  | idle
  | taken
  | ready
  | done
deriving DecidableEq, Repr

inductive ServerState where
  | idle
  | ready
deriving DecidableEq, Repr

/-- The part of `cxltpqueue_t` that both sides use. -/
structure Slot where
  clientState : ClientState
  serverState : ServerState
  clientRing : ℕ
  serverRing : ℕ

/-- The rings of a connection. -/
structure Conn where
  tx : ℕ
  rx : ℕ
deriving DecidableEq, Repr

/-- Where a thread is in `cxltp_dial`.  `h` is the number of its handshake. -/
inductive Dialer where
  | idle
  | alloced (tx : ℕ)
  | taken (h tx : ℕ)
  | wrote (h tx : ℕ)
  | waiting (h tx : ℕ)
  | sawReady (h tx : ℕ)
  | gotRing (h tx rx : ℕ)
  | done (h tx rx : ℕ)
  | sawIdle (h tx rx : ℕ)
  | gaveUp (tx : ℕ)
  | destroyed
deriving DecidableEq, Repr

/-- Where `listen_worker` is. -/
inductive Listener where
  | top
  | sawReady
  | alloced (tx : ℕ)
  | linked (tx rx : ℕ)
  | published (tx rx : ℕ)
  | polling (tx rx : ℕ)
  | notDone (tx rx : ℕ)
  | sawDone (h tx rx : ℕ)
  | queued
  | leaving
  | stopped
deriving DecidableEq, Repr

/-- The slot with its users.  `holder` is the dialer that has the slot and `begun` the number of
handshakes so far; `dialed` and `queued` are the connections that dials have returned and the
listener has queued, with the numbers of their handshakes. -/
structure Sys (ι : Type) where
  slot : Slot
  backlog : ℕ
  alloced : ℕ → Bool
  dialer : ι → Dialer
  listener : Listener
  holder : Option ι
  begun : ℕ
  dialed : List (ℕ × Conn)
  queued : List (ℕ × Conn)

def Sys.init (backlog : ℕ) : Sys ι where
  slot := ⟨.idle,.idle,0,0⟩
  backlog := backlog
  alloced := fun _ => false
  dialer := fun _ => .idle
  listener := .top
  holder := none
  begun := 0
  dialed := []
  queued := []

def Sys.setDialer (s : Sys ι) (i : ι) (d : Dialer) : Sys ι :=
  { s with dialer := update s.dialer i d }

/-- The next step of a dial.  A compare-and-swap that fails and a poll that finds nothing are
tried again. -/
def Sys.dial (s : Sys ι) (i : ι) : Option (Sys ι) :=
  match s.dialer i with
  | .idle => none
  | .alloced tx =>
    if s.slot.clientState = .idle then
      some ({ s with
        slot := { s.slot with clientState := .taken }
        holder := some i
        begun := s.begun+1 }.setDialer i (.taken (s.begun+1) tx))
    else none
  | .taken h tx => some ({ s with slot := { s.slot with clientRing := tx } }.setDialer i (.wrote h tx))
  | .wrote h tx =>
    some ({ s with slot := { s.slot with clientState := .ready } }.setDialer i (.waiting h tx))
  | .waiting h tx =>
    if s.slot.serverState = .ready then some (s.setDialer i (.sawReady h tx)) else none
  | .sawReady h tx => some (s.setDialer i (.gotRing h tx s.slot.serverRing))
  | .gotRing h tx rx =>
    some ({ s with slot := { s.slot with clientState := .done } }.setDialer i (.done h tx rx))
  | .done h tx rx =>
    if s.slot.serverState = .idle then some (s.setDialer i (.sawIdle h tx rx)) else none
  | .sawIdle h tx rx =>
    some ({ s with
      slot := { s.slot with clientState := .idle }
      holder := none
      dialed := s.dialed++[(h,Conn.mk tx rx)] }.setDialer i .idle)
  -- `cxltp_conn_destroy` gives the ring back before the slot is free again
  | .gaveUp tx => some ({ s with alloced := update s.alloced tx false }.setDialer i .destroyed)
  | .destroyed =>
    some ({ s with
      slot := { s.slot with clientState := .idle }
      holder := none }.setDialer i .idle)

/-- One of the three loops of a dial runs out of retries. -/
def Sys.timeout (s : Sys ι) (i : ι) : Option (Sys ι) :=
  match s.dialer i with
  | .alloced _ => some (s.setDialer i .idle)
  | .waiting _ tx => some (s.setDialer i (.gaveUp tx))
  | .done _ tx _ => some (s.setDialer i (.gaveUp tx))
  | _ => none

/-- The next step of the listener, apart from the allocation of a connection. -/
def Sys.listen (s : Sys ι) : Option (Sys ι) :=
  match s.listener with
  | .top =>
    if s.backlog = 0 then some { s with listener := .stopped }
    -- `BUG_ON`
    else if s.slot.serverState ≠ .idle then none
    else if s.slot.clientState = .ready then some { s with listener := .sawReady }
    else some s
  | .sawReady => none
  | .alloced tx => some { s with listener := .linked tx s.slot.clientRing }
  | .linked tx rx =>
    some { s with slot := { s.slot with serverRing := tx },listener := .published tx rx }
  | .published tx rx =>
    some { s with slot := { s.slot with serverState := .ready },listener := .polling tx rx }
  | .polling tx rx =>
    if s.slot.clientState = .done then some { s with listener := .sawDone s.begun tx rx }
    else some { s with listener := .notDone tx rx }
  | .notDone tx rx =>
    if s.slot.clientState = .ready then some { s with listener := .polling tx rx }
    else some { s with listener := .leaving }
  | .sawDone h tx rx => some { s with queued := s.queued++[(h,Conn.mk tx rx)],listener := .queued }
  | .queued =>
    some { s with
      slot := { s.slot with serverState := .idle }
      backlog := s.backlog-1
      listener := .top }
  | .leaving => some { s with slot := { s.slot with serverState := .idle },listener := .top }
  | .stopped => none

/-- `cxltp_conn_alloc` in the listener: it gets the ring, or there is none. -/
def Sys.listenAlloc (s : Sys ι) : Option ℕ → Option (Sys ι)
  | none => if s.listener = .sawReady then some { s with listener := .top } else none
  | some ring =>
    if s.listener = .sawReady ∧ s.alloced ring = false then
      some { s with alloced := update s.alloced ring true,listener := .alloced ring }
    else none

/-- The listener has found the client ready once too often. -/
def Sys.listenTimeout (s : Sys ι) : Option (Sys ι) :=
  match s.listener with
  | .notDone _ _ =>
    if s.slot.clientState = .ready then some { s with listener := .leaving } else none
  | _ => none

inductive Event (ι : Type) where
  | start (i : ι) (ring : ℕ)
  | dial (i : ι)
  | timeout (i : ι)
  | listen
  | listenAlloc (ring : Option ℕ)
  | listenTimeout

def step (s : Sys ι) : Event ι → Option (Sys ι)
  | .start i ring =>
    if s.dialer i = .idle ∧ s.alloced ring = false then
      some ({ s with alloced := update s.alloced ring true }.setDialer i (.alloced ring))
    else none
  | .dial i => s.dial i
  | .timeout i => s.timeout i
  | .listen => s.listen
  | .listenAlloc ring => s.listenAlloc ring
  | .listenTimeout => s.listenTimeout

def Listener.Rests : Listener → Prop
  | .top | .stopped => True
  | _ => False

instance : (l : Listener) → Decidable l.Rests
  | .top | .stopped => instDecidableTrue
  | .sawReady | .alloced _ | .linked _ _ | .published _ _ | .polling _ _ | .notDone _ _
  | .sawDone _ _ _ | .queued | .leaving => instDecidableFalse

def Dialer.HasGivenUp : Dialer → Prop
  | .gaveUp _ | .destroyed => True
  | _ => False

instance : (d : Dialer) → Decidable d.HasGivenUp
  | .gaveUp _ | .destroyed => instDecidableTrue
  | .idle | .alloced _ | .taken _ _ | .wrote _ _ | .waiting _ _ | .sawReady _ _ | .gotRing _ _ _
  | .done _ _ _ | .sawIdle _ _ _ => instDecidableFalse

/-- Nobody gives up a handshake that the other side is working on: a dial does not time out while
the listener deals with it, nor once it has said that it is done; the listener does not take up the
handshake of a dial that is timing out, and does not run out of retries. -/
def patient (s : Sys ι) : Event ι → Prop
  | .timeout i =>
    match s.dialer i with
    | .waiting _ _ => s.listener.Rests
    | .done _ _ _ => False
    | _ => True
  | .listen => s.listener = .top → ∀ i ∈ s.holder,¬(s.dialer i).HasGivenUp
  | .listenTimeout => False
  | _ => True

/-- The two ends of a handshake use the same pair of rings, and no two connections that have been
handed out write to, or read from, the same ring. -/
structure Agreed (s : Sys ι) : Prop where
  ends : ∀ h c₁ c₂,(h,c₁) ∈ s.dialed → (h,c₂) ∈ s.queued → c₁.rx = c₂.tx ∧ c₁.tx = c₂.rx
  unshared : (s.dialed++s.queued).Pairwise fun a b => a.2.tx ≠ b.2.tx ∧ a.2.rx ≠ b.2.rx

/-! ### Who uses a ring -/

/-- A ring belongs to a dial that has no handshake yet, or to one side of a handshake. -/
inductive Owner (ι : Type) where
  | dialer (i : ι)
  | dialSide (h : ℕ)
  | listenSide (h : ℕ)

/-- The owners of the rings, for `begun` handshakes. -/
@[grind cases] structure Owns (alloced : ℕ → Bool) (begun : ℕ) (own : ℕ → Option (Owner ι)) :
    Prop where
  pool : ∀ r,own r ≠ none → alloced r = true
  dialSide : ∀ r h,own r = some (.dialSide h) → h ≤ begun ∧
    ∀ r',own r' = some (.dialSide h) → r = r'
  listenSide : ∀ r h,own r = some (.listenSide h) → h ≤ begun ∧
    ∀ r',own r' = some (.listenSide h) → r = r'

/-- No ring of handshake `h` has been given to the listener, and it has queued nothing for it. -/
@[grind cases] structure Fresh (own : ℕ → Option (Owner ι)) (queued : List (ℕ × Conn)) (h : ℕ) :
    Prop where
  listenSide : ∀ r,own r ≠ some (.listenSide h)
  queued : h ∉ queued.map Prod.fst

/-- The phases that the dialer in the slot and the listener can be in together during handshake
`h`, and what the slot holds then. -/
@[grind cases,grind intro] inductive Joint (own : ℕ → Option (Owner ι))
    (queued : List (ℕ × Conn)) (h : ℕ) (q : Slot) : Option Dialer → Listener → Prop where
  | free {l : Listener} (hl : l.Rests) (hc : q.clientState = .idle) (hs : q.serverState = .idle) :
      Joint own queued h q none l
  | taken {tx : ℕ} {l : Listener} (hl : l.Rests) (hf : Fresh own queued h)
      (hd : own tx = some (.dialSide h)) (hc : q.clientState = .taken)
      (hs : q.serverState = .idle) : Joint own queued h q (some (.taken h tx)) l
  | wrote {tx : ℕ} {l : Listener} (hl : l.Rests) (hf : Fresh own queued h)
      (hd : own tx = some (.dialSide h)) (hc : q.clientState = .taken)
      (hs : q.serverState = .idle) (hr : q.clientRing = tx) :
      Joint own queued h q (some (.wrote h tx)) l
  | waiting {tx : ℕ} {l : Listener} (hl : l.Rests ∨ l = .sawReady) (hf : Fresh own queued h)
      (hd : own tx = some (.dialSide h)) (hc : q.clientState = .ready)
      (hs : q.serverState = .idle) (hr : q.clientRing = tx) :
      Joint own queued h q (some (.waiting h tx)) l
  | alloced {tx ltx : ℕ} (hn : h ∉ queued.map Prod.fst) (hd : own tx = some (.dialSide h))
      (hl : own ltx = some (.listenSide h)) (hc : q.clientState = .ready)
      (hs : q.serverState = .idle) (hr : q.clientRing = tx) :
      Joint own queued h q (some (.waiting h tx)) (.alloced ltx)
  | linked {tx ltx : ℕ} (hn : h ∉ queued.map Prod.fst) (hd : own tx = some (.dialSide h))
      (hl : own ltx = some (.listenSide h)) (hc : q.clientState = .ready)
      (hs : q.serverState = .idle) : Joint own queued h q (some (.waiting h tx)) (.linked ltx tx)
  | published {tx ltx : ℕ} (hn : h ∉ queued.map Prod.fst) (hd : own tx = some (.dialSide h))
      (hl : own ltx = some (.listenSide h)) (hc : q.clientState = .ready)
      (hs : q.serverState = .idle) (hr : q.serverRing = ltx) :
      Joint own queued h q (some (.waiting h tx)) (.published ltx tx)
  | polling {tx ltx : ℕ} {d : Dialer} {l : Listener} (hn : h ∉ queued.map Prod.fst)
      (hd : own tx = some (.dialSide h)) (hl : own ltx = some (.listenSide h))
      (hc : q.clientState = .ready) (hs : q.serverState = .ready) (hr : q.serverRing = ltx)
      (hdial : d = .waiting h tx ∨ d = .sawReady h tx ∨ d = .gotRing h tx ltx)
      (hlisten : l = .polling ltx tx ∨ l = .notDone ltx tx) : Joint own queued h q (some d) l
  | done {tx ltx : ℕ} {l : Listener} (hn : h ∉ queued.map Prod.fst)
      (hd : own tx = some (.dialSide h)) (hl : own ltx = some (.listenSide h))
      (hc : q.clientState = .done) (hs : q.serverState = .ready)
      (hlisten : l = .polling ltx tx ∨ l = .notDone ltx tx ∨ l = .sawDone h ltx tx) :
      Joint own queued h q (some (.done h tx ltx)) l
  | closing {tx ltx : ℕ} {l : Listener} (hd : own tx = some (.dialSide h))
      (hl : own ltx = some (.listenSide h)) (hc : q.clientState = .done)
      (hs : q.serverState = .ready) (hlisten : l = .queued ∨ l = .leaving) :
      Joint own queued h q (some (.done h tx ltx)) l
  | closed {tx ltx : ℕ} {d : Dialer} {l : Listener} (hl : l.Rests)
      (hd : own tx = some (.dialSide h)) (hl : own ltx = some (.listenSide h))
      (hc : q.clientState = .done) (hs : q.serverState = .idle)
      (hdial : d = .done h tx ltx ∨ d = .sawIdle h tx ltx) : Joint own queued h q (some d) l
  | gaveUp {tx : ℕ} {l : Listener} (hl : l.Rests) (hf : Fresh own queued h)
      (hd : own tx = some (.dialSide h)) (hc : q.clientState = .ready)
      (hs : q.serverState = .idle) : Joint own queued h q (some (.gaveUp tx)) l
  | destroyed {l : Listener} (hl : l.Rests) (hc : q.clientState = .ready)
      (hs : q.serverState = .idle) : Joint own queued h q (some .destroyed) l

/-- It has no part in a handshake. -/
def Dialer.outside : Dialer → Bool
  | .idle | .alloced _ => true
  | _ => false

@[grind cases] structure Inv (s : Sys ι) (own : ℕ → Option (Owner ι)) : Prop where
  owns : Owns s.alloced s.begun own
  holder : ∀ j,s.holder = some j ↔ (s.dialer j).outside = false
  alloced : ∀ j r,s.dialer j = .alloced r → own r = some (.dialer j)
  joint : Joint own s.queued s.begun s.slot (s.holder.map s.dialer) s.listener
  current : s.holder ≠ none → s.begun ∉ s.dialed.map Prod.fst
  dialed : ∀ h c,(h,c) ∈ s.dialed →
    own c.tx = some (.dialSide h) ∧ own c.rx = some (.listenSide h)
  queued : ∀ h c,(h,c) ∈ s.queued →
    own c.tx = some (.listenSide h) ∧ own c.rx = some (.dialSide h)
  dialedOnce : (s.dialed.map Prod.fst).Nodup
  queuedOnce : (s.queued.map Prod.fst).Nodup

variable {s t : Sys ι} {own own' : ℕ → Option (Owner ι)} {queued : List (ℕ × Conn)} {h r tx : ℕ}
  {q : Slot} {d : Option Dialer} {l : Listener} {i j : ι} {e : Event ι}

omit [DecidableEq ι] in
theorem inv_init (backlog : ℕ) : Inv (Sys.init backlog : Sys ι) fun _ => none where
  owns := ⟨by simp,by simp,by simp⟩
  holder _ := by simp [Sys.init,Dialer.outside]
  alloced := by simp [Sys.init]
  joint := .free trivial rfl rfl
  current := by simp [Sys.init]
  dialed := by simp [Sys.init]
  queued := by simp [Sys.init]
  dialedOnce := List.nodup_nil
  queuedOnce := List.nodup_nil

omit [DecidableEq ι] in
/-- Connections that have been handed out agree because a ring has one owner and each side of a
handshake one ring. -/
theorem Inv.agreed (hi : Inv s own) : Agreed s where
  ends h c₁ c₂ h₁ h₂ := by
    obtain ⟨htx₁,hrx₁⟩ := hi.dialed h c₁ h₁
    obtain ⟨htx₂,hrx₂⟩ := hi.queued h c₂ h₂
    exact ⟨(hi.owns.listenSide _ h hrx₁).2 _ htx₂,(hi.owns.dialSide _ h htx₁).2 _ hrx₂⟩
  unshared := by
    have hdiff {r₁ r₂ : ℕ} {o₁ o₂ : Owner ι} (h₁ : own r₁ = some o₁) (h₂ : own r₂ = some o₂)
        (hne : o₁ ≠ o₂) : r₁ ≠ r₂ := by
      rintro rfl
      exact hne (Option.some.inj (h₁.symm.trans h₂))
    have hside {xs : List (ℕ × Conn)} (hn : (xs.map Prod.fst).Nodup)
        (hne : ∀ a ∈ xs,∀ b ∈ xs,a.1 ≠ b.1 → a.2.tx ≠ b.2.tx ∧ a.2.rx ≠ b.2.rx) :
        xs.Pairwise fun a b => a.2.tx ≠ b.2.tx ∧ a.2.rx ≠ b.2.rx := by
      have hn : xs.Pairwise fun a b => a.1 ≠ b.1 := List.pairwise_map.mp hn
      exact hn.imp_of_mem fun ha hb hab => hne _ ha _ hb hab
    rw [List.pairwise_append]
    refine ⟨hside hi.dialedOnce ?_,hside hi.queuedOnce ?_,?_⟩
    · intro a ha b hb hab
      obtain ⟨htx,hrx⟩ := hi.dialed a.1 a.2 ha
      obtain ⟨htx',hrx'⟩ := hi.dialed b.1 b.2 hb
      exact ⟨hdiff htx htx' (by simpa using hab),hdiff hrx hrx' (by simpa using hab)⟩
    · intro a ha b hb hab
      obtain ⟨htx,hrx⟩ := hi.queued a.1 a.2 ha
      obtain ⟨htx',hrx'⟩ := hi.queued b.1 b.2 hb
      exact ⟨hdiff htx htx' (by simpa using hab),hdiff hrx hrx' (by simpa using hab)⟩
    · intro a ha b hb
      obtain ⟨htx,hrx⟩ := hi.dialed a.1 a.2 ha
      obtain ⟨htx',hrx'⟩ := hi.queued b.1 b.2 hb
      exact ⟨hdiff htx htx' (by simp),hdiff hrx hrx' (by simp)⟩

/-! ### Steps -/

omit [DecidableEq ι] in
theorem Joint.mono (hj : Joint own queued h q d l)
    (hm : ∀ r o,own r = some o → own' r = some o)
    (hl : ∀ r,own' r = some (.listenSide h) → own r = some (.listenSide h)) :
    Joint own' queued h q d l := by
  have hfresh (hf : Fresh own queued h) : Fresh own' queued h :=
    ⟨fun r hr => hf.listenSide r (hl r hr),hf.queued⟩
  grind

omit [DecidableEq ι] in
theorem Joint.free_of_idle (hj : Joint own queued h q d l) (hc : q.clientState = .idle) :
    d = none ∧ l.Rests ∧ q.serverState = .idle := by
  grind

theorem Inv.setDialer {d : Dialer} (hi : Inv s own) (hh : s.holder = some i)
    (hd : d.outside = false) (hj : Joint own s.queued s.begun q (some d) s.listener) :
    Inv ({ s with slot := q }.setDialer i d) own := by
  refine { hi with holder := ?_,alloced := ?_,joint := ?_ }
  · simp only [Sys.setDialer]
    grind [update_apply]
  · simp only [Sys.setDialer]
    grind [update_apply,Dialer.outside]
  · simpa [Sys.setDialer,hh] using hj

/-- One outside of it goes on, and the slot is as it was. -/
theorem map_update_dialer {d : Dialer} (hne : s.holder ≠ some i) :
    s.holder.map (update s.dialer i d) = s.holder.map s.dialer := by
  cases hh : s.holder with
  | none => rfl
  | some j =>
    have hji : j ≠ i := fun heq => hne (heq ▸ hh)
    simp [hji]

theorem Inv.start (hi : Inv s own) (hd : s.dialer i = .idle) (hr : s.alloced r = false) :
    Inv ({ s with alloced := update s.alloced r true }.setDialer i (.alloced r))
      (update own r (some (.dialer i))) := by
  have hnone : own r = none := by grind
  have hholder : s.holder ≠ some i := by grind [Dialer.outside]
  have hmap := map_update_dialer (d:=.alloced r) hholder
  refine ⟨?_,?_,?_,?_,hi.current,?_,?_,hi.dialedOnce,hi.queuedOnce⟩
  · constructor <;> simp only [Sys.setDialer] <;> grind [update_apply]
  · simp only [Sys.setDialer]
    grind [update_apply,Dialer.outside]
  · simp only [Sys.setDialer]
    grind [update_apply]
  · simp only [Sys.setDialer,hmap]
    exact hi.joint.mono (by grind [update_apply]) (by grind [update_apply])
  · simp only [Sys.setDialer]
    grind [update_apply]
  · simp only [Sys.setDialer]
    grind [update_apply]

theorem Inv.leak (hi : Inv s own) (hd : s.dialer i = .alloced tx) :
    Inv (s.setDialer i .idle) own := by
  have hholder : s.holder ≠ some i := by grind [Dialer.outside]
  have hmap := map_update_dialer (d:=.idle) hholder
  refine { hi with holder := ?_,alloced := ?_,joint := ?_ }
  · simp only [Sys.setDialer]
    grind [update_apply,Dialer.outside]
  · simp only [Sys.setDialer]
    grind [update_apply]
  · simpa only [Sys.setDialer,hmap] using hi.joint

theorem Inv.take (hi : Inv s own) (hd : s.dialer i = .alloced tx)
    (hc : s.slot.clientState = .idle) :
    Inv ({ s with
        slot := { s.slot with clientState := .taken }
        holder := some i
        begun := s.begun+1 }.setDialer i (.taken (s.begun+1) tx))
      (update own tx (some (.dialSide (s.begun+1)))) := by
  obtain ⟨hnone,hrests,hs⟩ := hi.joint.free_of_idle hc
  have hnone : s.holder = none := by simpa using hnone
  have hown := hi.alloced i tx hd
  have hdialed : s.begun+1 ∉ s.dialed.map Prod.fst := by grind
  have hqueued : s.begun+1 ∉ s.queued.map Prod.fst := by grind
  refine ⟨?_,?_,?_,?_,?_,?_,?_,hi.dialedOnce,hi.queuedOnce⟩
  · constructor <;> simp only [Sys.setDialer] <;> grind [update_apply]
  · simp only [Sys.setDialer]
    grind [update_apply,Dialer.outside]
  · simp only [Sys.setDialer]
    grind [update_apply]
  · simp only [Sys.setDialer,Option.map_some,update_self]
    refine .taken hrests ⟨?_,hqueued⟩ (by simp) rfl hs
    grind [update_apply]
  · exact fun _ => hdialed
  · simp only [Sys.setDialer]
    grind [update_apply]
  · simp only [Sys.setDialer]
    grind [update_apply]

theorem Inv.leave (hi : Inv s own) (hh : s.holder = some i) (hl : s.listener.Rests)
    (hs : s.slot.serverState = .idle) (dialed : List (ℕ × Conn))
    (hd : ∀ h c,(h,c) ∈ dialed → own c.tx = some (.dialSide h) ∧ own c.rx = some (.listenSide h))
    (hone : (dialed.map Prod.fst).Nodup) :
    Inv ({ s with
        slot := { s.slot with clientState := .idle }
        holder := none
        dialed := dialed }.setDialer i .idle) own := by
  refine ⟨hi.owns,?_,?_,.free hl rfl hs,fun hne => absurd rfl hne,hd,hi.queued,hone,hi.queuedOnce⟩
  · simp only [Sys.setDialer]
    grind [update_apply,Dialer.outside]
  · simp only [Sys.setDialer]
    grind [update_apply]

/-- The ring of a dial that has timed out goes back to the pool; nobody has it. -/
theorem Inv.destroy (hi : Inv s own) (hh : s.holder = some i) (hd : s.dialer i = .gaveUp tx) :
    Inv ({ s with alloced := update s.alloced tx false }.setDialer i .destroyed)
      (update own tx none) := by
  have hj := hi.joint
  rw [hh,Option.map_some,hd] at hj
  obtain ⟨hl,hf,hown,hc,hs⟩ : s.listener.Rests ∧ Fresh own s.queued s.begun ∧
      own tx = some (.dialSide s.begun) ∧ s.slot.clientState = .ready ∧
      s.slot.serverState = .idle := by grind
  refine ⟨?_,?_,?_,?_,hi.current,?_,?_,hi.dialedOnce,hi.queuedOnce⟩
  · constructor <;> simp only [Sys.setDialer] <;> grind [update_apply]
  · simp only [Sys.setDialer]
    grind [update_apply,Dialer.outside]
  · simp only [Sys.setDialer]
    grind [update_apply]
  · simp only [Sys.setDialer,hh,Option.map_some,update_self]
    exact .destroyed hl hc hs
  · simp only [Sys.setDialer]
    grind [update_apply]
  · simp only [Sys.setDialer]
    grind [update_apply]

omit [DecidableEq ι] in
theorem Inv.listenAlloc (hi : Inv s own) (hl : s.listener = .sawReady) (hr : s.alloced r = false) :
    Inv { s with alloced := update s.alloced r true,listener := .alloced r }
      (update own r (some (.listenSide s.begun))) := by
  have hnone : own r = none := by grind
  have hj := hi.joint
  rw [hl] at hj
  refine ⟨?_,hi.holder,?_,?_,hi.current,?_,?_,hi.dialedOnce,hi.queuedOnce⟩
  · constructor <;> grind [update_apply,Listener.Rests]
  · grind [update_apply]
  · generalize s.holder.map s.dialer = d at hj
    grind [update_apply,Listener.Rests]
  · grind [update_apply]
  · grind [update_apply]

theorem dial_inv (hi : Inv s own) (hd : s.dial i = some t) : ∃ own',Inv t own' := by
  by_cases hh : s.holder = some i
  · have hj := hi.joint
    rw [hh,Option.map_some] at hj
    generalize hp : s.dialer i = d,hlis : s.listener = l at hj
    simp only [Sys.dial,hp] at hd
    -- one case for each phase that the handshake can be in
    cases hj with
    | taken hl hf hown hc hs =>
      cases hd
      exact ⟨own,hi.setDialer hh rfl (hlis ▸ .wrote hl hf hown hc hs rfl)⟩
    | wrote hl hf hown hc hs hr =>
      cases hd
      exact ⟨own,hi.setDialer hh rfl (hlis ▸ .waiting (.inl hl) hf hown rfl hs hr)⟩
    | waiting hl hf hown hc hs | alloced hn hown hl hc hs | linked hn hown hl hc hs
    | published hn hown hl hc hs => simp [hs] at hd
    | polling hn hown hl hc hs hr hdial hlisten =>
      rcases hdial with rfl | rfl | rfl
      · simp only [if_pos hs] at hd
        cases hd
        exact ⟨own,hi.setDialer hh rfl (by grind)⟩
      · cases hd
        exact ⟨own,hi.setDialer hh rfl (by grind)⟩
      · cases hd
        exact ⟨own,hi.setDialer hh rfl (hlis ▸ .done hn hown hl rfl hs (hlisten.imp_right .inl))⟩
    | done hn hown hl hc hs | closing hown hl hc hs => simp [hs] at hd
    | closed hrests hown hl hc hs hdial =>
      rcases hdial with rfl | rfl
      · simp only [if_pos hs] at hd
        cases hd
        exact ⟨own,hi.setDialer hh rfl (by grind)⟩
      · cases hd
        have hcurrent := hi.current (by simp [hh])
        have hone := hi.dialedOnce
        refine ⟨own,hi.leave hh (hlis ▸ hrests) hs _ ?_ ?_⟩
        · grind
        · rw [List.map_append]
          grind
    | gaveUp =>
      cases hd
      exact ⟨_,hi.destroy hh hp⟩
    | destroyed hl hc hs =>
      cases hd
      exact ⟨own,hi.leave hh (hlis ▸ hl) hs _ hi.dialed hi.dialedOnce⟩
  · have hout := (hi.holder i).not.mp hh
    cases hp : s.dialer i with
    | idle => simp [Sys.dial,hp] at hd
    | alloced tx =>
      simp only [Sys.dial,hp] at hd
      split_ifs at hd with hc
      cases hd
      exact ⟨_,hi.take hp hc⟩
    | _ => simp [hp,Dialer.outside] at hout

theorem timeout_inv (hi : Inv s own) (hok : patient s (.timeout i)) (ht : s.timeout i = some t) :
    Inv t own := by
  unfold Sys.timeout at ht
  cases hp : s.dialer i with
  | alloced tx =>
    simp only [hp] at ht
    cases ht
    exact hi.leak hp
  | waiting h tx =>
    simp only [hp] at ht
    cases ht
    have hrests : s.listener.Rests := by simpa [patient,hp] using hok
    have hh : s.holder = some i := by grind [Dialer.outside]
    have hj := hi.joint
    rw [hh,Option.map_some,hp] at hj
    exact hi.setDialer hh rfl (by grind [Listener.Rests])
  | done => exact absurd hok (by simp [patient,hp])
  | idle | taken | wrote | sawReady | gotRing | sawIdle | gaveUp | destroyed => simp [hp] at ht

omit [DecidableEq ι] in
theorem Inv.enqueue {ltx rx : ℕ} (hi : Inv s own) (hl : s.listener = .sawDone h ltx rx) :
    Inv { s with queued := s.queued++[(h,Conn.mk ltx rx)],listener := .queued } own := by
  have hj := hi.joint
  rw [hl] at hj
  refine { hi with joint := ?_,queued := ?_,queuedOnce := ?_ }
  · generalize s.holder.map s.dialer = d at hj
    grind [Listener.Rests]
  · grind [Listener.Rests]
  · have := hi.queuedOnce
    rw [List.map_append]
    grind [Listener.Rests]

omit [DecidableEq ι] in
/-- Each step of the listener follows from the phase that the handshake is in. -/
theorem listen_inv (hi : Inv s own) (hok : patient s .listen) (ht : s.listen = some t) :
    Inv t own := by
  have hj := hi.joint
  have hup : s.listener = .top → ∀ x,s.holder.map s.dialer = some x → ¬x.HasGivenUp := by
    intro hl x hx
    obtain ⟨i,hh,rfl⟩ := Option.map_eq_some_iff.mp hx
    exact hok hl i hh
  unfold Sys.listen at ht
  cases hp : s.listener with simp only [hp] at ht hj
  | sawReady | stopped => cases ht
  | sawDone h ltx rx =>
    cases ht
    exact hi.enqueue hp
  | published ltx rx =>
    cases ht
    refine { hi with joint := ?_ }
    generalize s.holder.map s.dialer = d at hj ⊢
    cases hj with
    | published hn hd hl hc hs hr => exact .polling hn hd hl hc rfl hr (.inl rfl) (.inl rfl)
    | _ => simp_all [Listener.Rests]
  | top | polling ltx rx | notDone ltx rx =>
    split_ifs at ht
    all_goals
      cases ht
      refine { hi with joint := ?_ }
      generalize s.holder.map s.dialer = d at hj hup ⊢
      grind [Listener.Rests,Dialer.HasGivenUp]
  | alloced ltx | linked ltx rx | queued | leaving =>
    cases ht
    refine { hi with joint := ?_ }
    generalize s.holder.map s.dialer = d at hj ⊢
    grind [Listener.Rests]

theorem step_inv (hi : ∃ own,Inv s own) (hok : patient s e) (hstep : step s e = some t) :
    ∃ own,Inv t own := by
  obtain ⟨own,hi⟩ := hi
  cases e with
  | start i r =>
    simp only [step] at hstep
    split_ifs at hstep with hr
    cases hstep
    exact ⟨_,hi.start hr.1 hr.2⟩
  | dial i => exact dial_inv hi hstep
  | timeout i => exact ⟨own,timeout_inv hi hok hstep⟩
  | listen => exact ⟨own,listen_inv hi hok hstep⟩
  | listenAlloc ring =>
    have hj := hi.joint
    cases ring with
    | none =>
      simp only [step,Sys.listenAlloc] at hstep
      split_ifs at hstep with hl
      cases hstep
      rw [hl] at hj
      refine ⟨own,{ hi with joint := ?_ }⟩
      generalize s.holder.map s.dialer = d at hj ⊢
      grind [Listener.Rests]
    | some r =>
      simp only [step,Sys.listenAlloc] at hstep
      split_ifs at hstep with hr
      cases hstep
      exact ⟨_,hi.listenAlloc hr.1 hr.2⟩
  | listenTimeout => exact hok.elim

/-- In every run in which nobody gives up a handshake that the other side is working on, both ends
of every handshake agree and no ring is shared. -/
theorem dial_agrees {backlog : ℕ} {es : List (Event ι)}
    (hok : Machine.Along step patient (Sys.init backlog) es)
    (hrun : Machine.run step (Sys.init backlog) es = some t) : Agreed t := by
  obtain ⟨own,hi⟩ := Machine.run_invariant (P:=fun s => ∃ own,Inv s own) step_inv
    ⟨_,inv_init backlog⟩ hok hrun
  exact hi.agreed

instance (s : Sys ι) : (e : Event ι) → Decidable (patient s e)
  | .timeout i =>
    match h : s.dialer i with
    | .waiting _ _ => decidable_of_iff s.listener.Rests (by simp [patient,h])
    | .done _ _ _ => isFalse (by simp [patient,h])
    | .idle | .alloced _ | .taken _ _ | .wrote _ _ | .sawReady _ _ | .gotRing _ _ _
    | .sawIdle _ _ _ | .gaveUp _ | .destroyed => isTrue (by simp [patient,h])
  | .listen =>
    decidable_of_iff (s.listener = .top → ∀ i ∈ s.holder,¬(s.dialer i).HasGivenUp) .rfl
  | .listenTimeout => instDecidableFalse
  | .start _ _ | .dial _ | .listenAlloc _ => instDecidableTrue

/-- A dial gets the slot and says that it is ready. -/
def ready (i : Fin 2) (ring : ℕ) : List (Event (Fin 2)) :=
  [.start i ring,.dial i,.dial i,.dial i]

/-- The listener takes up the handshake and offers its own ring. -/
def offer (ring : ℕ) : List (Event (Fin 2)) :=
  [.listen,.listenAlloc (some ring),.listen,.listen,.listen]

/-- The rest of the handshake. -/
def finish (i : Fin 2) : List (Event (Fin 2)) :=
  [.dial i,.dial i,.dial i,.listen,.listen,.listen,.dial i,.dial i]

/-- Dialer 0 times out before the listener has looked, and dialer 1 gets its ring. -/
theorem dial_agrees_after_timeout :
    ∃ t ∈ Machine.run step (Sys.init 2 : Sys (Fin 2))
        [ready 0 10,[.timeout 0,.dial 0,.dial 0],ready 1 10,offer 20,finish 1].flatten,
      t.dialed = [(2,⟨10,20⟩)] ∧ t.queued = [(2,⟨20,10⟩)] ∧ Agreed t := by
  obtain ⟨t,ht,hd,hq⟩ : ∃ t ∈ Machine.run step (Sys.init 2 : Sys (Fin 2))
      [ready 0 10,[.timeout 0,.dial 0,.dial 0],ready 1 10,offer 20,finish 1].flatten,
      t.dialed = [(2,⟨10,20⟩)] ∧ t.queued = [(2,⟨20,10⟩)] := by decide +kernel
  exact ⟨t,ht,hd,hq,dial_agrees (by decide +kernel) ht⟩

/-- What timeouts in the middle of a handshake lead to.  Dialer 0 times out after the listener has
copied its ring, and dialer 1 finds the stale offer; dialer 0 times out when it is done, and its
ring is used again while the listener's connection reads from it; the listener times out and offers
a new ring after the dialer has read the old one. -/
theorem dial_disagrees :
    (∃ t ∈ Machine.run step (Sys.init 2 : Sys (Fin 2))
        [ready 0 10,offer 20,[.timeout 0,.dial 0,.dial 0],ready 1 11,finish 1].flatten,
      t.dialed = [(2,⟨11,20⟩)] ∧ t.queued = [(2,⟨20,10⟩)]) ∧
    (∃ t ∈ Machine.run step (Sys.init 2 : Sys (Fin 2))
        [ready 0 10,offer 20,[.dial 0,.dial 0,.dial 0,.listen,.listen,.listen,.timeout 0,.dial 0,
          .dial 0],ready 1 10,offer 21,finish 1].flatten,
      t.queued = [(1,⟨20,10⟩),(2,⟨21,10⟩)]) ∧
    ∃ t ∈ Machine.run step (Sys.init 2 : Sys (Fin 2))
        [ready 0 10,offer 20,[.dial 0,.dial 0,.listen,.listenTimeout,.listen],offer 21,
          [.dial 0,.listen,.listen,.listen,.dial 0,.dial 0]].flatten,
      t.dialed = [(1,⟨10,20⟩)] ∧ t.queued = [(1,⟨21,10⟩)] := by
  refine ⟨?_,?_,?_⟩ <;> decide +kernel

end CxltpDial
end Vessel
