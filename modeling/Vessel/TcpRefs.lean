import Vessel.Kref
import Vessel.TcpOwes
import Vessel.TcpScale
import Vessel.TcpSend

/-! The reference count of a TCP connection, next to those who hold a reference: the caller who
opened the connection or its listen queue, the state machine, and each retransmission.  A step is a
section under the lock or what a thread does between two sections.  A thread that waits on `tx_wq`
may look at the connection again at any time. -/
namespace Vessel.TcpRefs

open Tcp

/-- Where a retransmission is that has taken its reference: the timeout handler has left the lock
and is to start it, `tcp_retransmit` is to get the connection, it is at buffer `i` of
`tcp_tx_retransmit`, it is to drop the reference, or it is over. -/
inductive Place
  | taken (nowait : Bool)
  | waiting
  | resending (i : ℕ)
  | putting
  | over
  deriving DecidableEq

/-- A retransmission, and how often it has dropped its reference. -/
structure Job where
  place : Place
  drops : ℕ
  deriving DecidableEq

/-- Where the first reference is: with a call that has attached the connection and is to send its
SYN, with `tcp_dial` while it waits, in a listen queue, with a caller, with `tcp_close` while it
waits, with `tcp_close` past its section, or nowhere any more. -/
inductive User
  | opening
  | connecting
  | queued
  | holding
  | closing
  | putting
  | gone
  deriving DecidableEq

/-- `owed` timeout handlers have closed the connection in `TIME_WAIT` and are to drop the reference
of the state machine.  Two fields are history: how often that reference was taken and dropped. -/
structure Refs where
  kref : Kref
  user : User
  jobs : List Job
  owed : ℕ
  smGets : ℕ
  smDrops : ℕ
  deriving DecidableEq

/-- `writing` tells whether a write has `tx_exclusive`, `shutters` are the calls of `tcp_shutdown`
that wait for it, with what they are to do about the receiving side.  Once `tcp_conn_release` has
run (`freed`), no packet, error or timeout reaches the connection. -/
structure Sys extends Tcp.Sys where
  refs : Refs
  writing : Bool
  shutters : List Bool
  freed : Bool

/-- A connection that is attached; its SYN is not sent yet. -/
def Sys.start (c : Conn) : Sys := ⟨.start c,⟨.init,.opening,[],0,0,0⟩,false,[],false⟩

/-- What the clock says about the timeouts of a connection. -/
structure Due where
  connect : Bool
  timeWait : Bool
  ack : Bool
  retransmit : Bool

/-- In a step of a retransmission, `go` says whether `thread_spawn` succeeds, or whether
`tcp_tx_retransmit` goes on. -/
inductive Event
  | dial (tx : TxResult)
  | listen (opts : Options) (tx : TxResult)
  | dialReturns
  | accept
  | qclose
  | recv (env : Env) (p : Packet)
  | error (err : ℤ)
  | timeout (nowait : Bool) (due : Due)
  | timeWaitPut
  | job (k : ℕ) (go inPlace : Bool)
  | write
  | round (rest : List UInt8) (push alloc : Bool)
  | writeFinish (wake : Bool)
  | receive (ev : Tcp.Event)
  | shutdown (rx : Bool) (tx : TxResult)
  | shutdownGo (i : ℕ) (tx : TxResult)
  | abort
  | close (tx : TxResult) (err : ℤ)
  | closeGo (tx : TxResult) (err : ℤ)
  | closePut
  | release

/-! ### References -/

def eTimedOut : ℤ := 110

def eConnAborted : ℤ := 103

/-- `tcp_conn_get`. -/
def Refs.get (r : Refs) : Except Abort Refs :=
  match r.kref.get with
  | none => .error .assertion
  | some k => .ok { r with kref := k }

/-- `tcp_conn_put`; `tcp_conn_release_ref` has a `BUG_ON` for a connection that is not closed. -/
def Refs.put (r : Refs) (s : State) : Except Abort Refs :=
  if r.kref.isLast ∧ s ≠ .closed then .error .bugOn else .ok { r with kref := r.kref.put }

/-- The reference of the state machine is dropped `n` times. -/
def Refs.drop (r : Refs) (s : State) : ℕ → Except Abort Refs
  | 0 => .ok r
  | n+1 => do
    let r ← ({ r with smDrops := r.smDrops+1 } : Refs).put s
    r.drop s n

/-- `tcp_conn_destroy`, by the one who has the first reference. -/
def Refs.destroy (r : Refs) : Refs := { r with kref := r.kref.release, user := .gone }

/-- A section has left the connection as `c`. -/
def Sys.settle (s : Sys) (c : Conn) (d : List Deferred) : Except Abort Sys := do
  let r ← s.refs.drop c.state (puts d)
  pure { s with conn := c, refs := r }

def Sys.fail (s : Sys) (err : ℤ) : Except Abort Sys := do
  let (c,d) ← tcpConnFail s.conn err
  s.settle c d

/-! ### Opening -/

/-- The end of `tcp_dial`, before it waits, and of `tcp_rx_listener`. -/
def Sys.opened (s : Sys) (user : User) : Option Conn → Except Abort Sys
  | none => pure { s with refs := s.refs.destroy }
  | some c => do
    let r ← s.refs.get
    pure { s with conn := c, refs := { r with user := user, smGets := r.smGets+1 } }

/-! ### Timeouts and retransmissions -/

/-- `tcp_handle_timeouts` and `do_tcp_handle_timeouts`, which differ in how they start a
retransmission, up to the end of their section. -/
def Sys.tcpHandleTimeouts (s : Sys) (nowait : Bool) (due : Due) : Except Abort Sys :=
  if s.conn.state = .closed then pure s
  else if s.conn.state.ctorIdx < State.established.ctorIdx ∧ due.connect then s.fail eTimedOut
  else if s.conn.state = .timeWait ∧ due.timeWait then do
    let (c,_) ← tcpConnSetState s.conn .closed
    pure { s with conn := c, refs := { s.refs with owed := s.refs.owed+1 } }
  else do
    let c := { s.conn with ackDelayed := s.conn.ackDelayed && !due.ack }
    if !c.txExclusive && !c.txq.isEmpty && due.retransmit then
      let r ← s.refs.get
      pure { s with conn := c, refs := { r with jobs := r.jobs++[⟨.taken nowait,0⟩] } }
    else pure { s with conn := c }

/-- Retransmission `k`, which was `j`, is at `p`. -/
def Refs.move (r : Refs) (k : ℕ) (j : Job) (p : Place) : Refs :=
  { r with jobs := r.jobs.set k { j with place := p } }

def Sys.move (s : Sys) (k : ℕ) (j : Job) (p : Place) : Sys := { s with refs := s.refs.move k j p }

/-- `tcp_retransmit` and `tcp_retransmit_nowait` when they need not wait. -/
def Sys.beginResend (s : Sys) (k : ℕ) (j : Job) : Sys :=
  match retransmitStart s.conn with
  | none => s.move k j .putting
  | some c => { s.move k j (.resending 0) with conn := c }

/-- The next step of retransmission `k`.  `tcp_retransmit_nowait` returns at once when another
thread has `tx_exclusive`. -/
def Sys.advance (s : Sys) (k : ℕ) (j : Job) (go inPlace : Bool) : Except Abort (Option Sys) :=
  let busy := s.conn.txExclusive && s.conn.state ≠ .closed
  match j.place with
  | .taken false => pure (some (s.move k j (if go then .waiting else .over)))
  | .taken true => pure (some (if busy then s.move k j .over else s.beginResend k j))
  | .waiting => pure (if busy then none else some (s.beginResend k j))
  | .resending i =>
    match (if go then s.conn.txq[i]? else none) with
    | none => do
      let (c,_) ← tcpWriteFinish s.conn true
      pure (some { s.move k j .putting with conn := c })
    | some m => do
      let m ← tcpTxRetransmitOne s.conn.sndUna inPlace m
      pure (some { s.move k j (.resending (i+1)) with
        conn := { s.conn with txq := s.conn.txq.set i m } })
  | .putting => do
    let r ← (s.refs.move k { j with drops := j.drops+1 } .over).put s.conn.state
    pure (some { s with refs := r })
  | .over => pure none

/-! ### Shutdown -/

/-- The rest of `tcp_shutdown` once no writer is busy. -/
def Sys.shutSend (s : Sys) (rx : Bool) (tx : TxResult) : Except Abort Sys := do
  let (c,ok,_) ← shutdownTxSend s.conn tx
  pure { s with conn := if ok && rx then (tcpConnShutdownRx c).1 else c }

/-- The end of the section of `tcp_close`. -/
def Sys.closed (s : Sys) : Sys :=
  { s with conn := (tcpConnShutdownRx s.conn).1, refs := { s.refs with user := .putting } }

/-- The rest of that section once no writer is busy; `err` is the error where `tcp_tx_ctl` returns
one. -/
def Sys.closeSend (s : Sys) (tx : TxResult) (err : ℤ) : Except Abort Sys := do
  let (c,ok,_) ← shutdownTxSend s.conn tx
  let s : Sys := { s with conn := c }
  if ok then pure s.closed
  else do
    let s ← s.fail err
    pure s.closed

/-! ### Steps -/

/-- None where the step cannot happen now. -/
def Sys.attempt (s : Sys) : Event → Except Abort (Option Sys)
  | .dial tx =>
    if s.refs.user = .opening then do
      let (o,_) ← tcpDial s.conn true tx
      some <$> s.opened .connecting o
    else pure none
  | .listen opts tx =>
    if s.refs.user = .opening then do
      let (o,_) ← sendSyn s.conn (tcpSyn ||| tcpAck) opts tx .synReceived
      some <$> s.opened .queued o
    else pure none
  | .dialReturns =>
    if s.refs.user ≠ .connecting then pure none
    else if s.conn.txClosed then pure (some { s with refs := s.refs.destroy })
    else if s.conn.state.ctorIdx < State.established.ctorIdx then pure none
    else pure (some { s with refs := { s.refs with user := .holding } })
  | .accept =>
    pure (if s.refs.user = .queued then some { s with refs := { s.refs with user := .holding } }
      else none)
  | .qclose =>
    pure (if s.refs.user = .queued then some { s with refs := s.refs.destroy } else none)
  | .recv env p =>
    if s.freed then pure none
    else do
      let (c,d) ← tcpRxConn env s.conn p
      some <$> s.settle c d
  | .error err => if s.freed then pure none else some <$> s.fail err
  | .timeout nowait due =>
    if s.freed then pure none else some <$> s.tcpHandleTimeouts nowait due
  | .timeWaitPut =>
    if s.refs.owed = 0 then pure none
    else do
      let r ← ({ s.refs with owed := s.refs.owed-1 } : Refs).drop s.conn.state 1
      pure (some { s with refs := r })
  | .job k go inPlace =>
    match s.refs.jobs[k]? with
    | none => pure none
    | some j => s.advance k j go inPlace
  | .write =>
    pure (if s.refs.user = .holding ∧ writeBlocked s.conn = false then
        (writeStart s.conn).map fun (c,_) => { s with conn := c, writing := true }
      else none)
  | .round rest push alloc =>
    pure (if s.writing then
        (txFill s.conn rest alloc).map fun (c,m,rest') => { s with conn := txEmit c m rest' push }
      else none)
  | .writeFinish wake =>
    if s.writing then do
      let (c,_) ← tcpWriteFinish s.conn wake
      pure (some { s with conn := c, writing := false })
    else pure none
  | .receive ev =>
    if TcpSend.reads ev then do
      let t ← s.toSys.step ev
      pure (t.map fun t => { s with toSys := t })
    else pure none
  | .shutdown rx tx =>
    if s.refs.user ≠ .holding then pure none
    else if s.conn.txClosed then
      pure (some { s with conn := if rx then (tcpConnShutdownRx s.conn).1 else s.conn })
    else do
      assertThat (State.established.ctorIdx ≤ s.conn.state.ctorIdx)
      if s.conn.txExclusive then pure (some { s with shutters := s.shutters++[rx] })
      else some <$> s.shutSend rx tx
  | .shutdownGo i tx =>
    match s.shutters[i]? with
    | none => pure none
    | some rx =>
      if s.conn.txExclusive then pure none
      else some <$> ({ s with shutters := s.shutters.eraseIdx i } : Sys).shutSend rx tx
  | .abort =>
    if s.refs.user ≠ .holding then pure none
    else if s.conn.state = .closed then pure (some s)
    else some <$> s.fail eConnAborted
  | .close tx err =>
    if s.refs.user ≠ .holding then pure none
    else if s.conn.txClosed then pure (some s.closed)
    else do
      assertThat (State.established.ctorIdx ≤ s.conn.state.ctorIdx)
      if s.conn.txExclusive then
        pure (some { s with refs := { s.refs with user := .closing } })
      else some <$> s.closeSend tx err
  | .closeGo tx err =>
    if s.refs.user ≠ .closing ∨ s.conn.txExclusive then pure none
    else some <$> s.closeSend tx err
  | .closePut =>
    if s.refs.user ≠ .putting then pure none
    else do
      let r ← ({ s.refs with user := .gone } : Refs).put s.conn.state
      pure (some { s with refs := r })
  | .release =>
    pure (if 0 < s.refs.kref.released ∧ s.freed = false then some { s with freed := true }
      else none)

/-- None also where an assertion of the source fails. -/
def Sys.step (s : Sys) (ev : Event) : Option Sys := (s.attempt ev).toOption.bind id

end Vessel.TcpRefs
