import Vessel.TcpSend
import Vessel.TcpOwes

/-! Threads that write, read and retransmit on one connection, with the wait queues `tx_wq` and
`rx_wq`.  A step of a thread is one section under the lock, or what it does alone while it has
`tx_exclusive` or `rx_exclusive`.  A thread that was taken off a queue looks at the connection
again, at any time from then on. -/
namespace Vessel.TcpWake

open Tcp

inductive Call
  | write (data : List UInt8)
  | tryWrite (data : List UInt8)
  | retransmit
  | retransmitNowait
  | read (len : ℕ)
  | tryRead (len : ℕ)
  deriving DecidableEq

/-- Where a thread is: in no call, before the first section of one, queued in it, in
`tcp_tx_send` with `rest` to send, before `tcp_write_finish` or `tcp_write_finish_nowake`, at
buffer `i` of `tcp_tx_retransmit`, or past the first section of a read, with the bytes to take
off the first buffer. -/
inductive Pos
  | idle
  | entry (k : Call)
  | parked (k : Call)
  | sending (wake : Bool) (rest : List UInt8)
  | finishing (wake : Bool)
  | resending (i : ℕ)
  | reading (cpylen : Option ℕ)
  | tryReading (cpylen : Option ℕ)
  deriving DecidableEq

/-- The two last fields are history: the threads that set `tx_exclusive` and `rx_exclusive`. -/
structure Sys (ι : Type) where
  conn : Conn
  pos : ι → Pos
  txWq : List ι
  rxWq : List ι
  txOwner : Option ι
  rxOwner : Option ι

/-- In a step of a thread, `go` says whether a buffer can be allocated, or whether
`tcp_tx_retransmit` goes on. -/
inductive Event (ι : Type)
  | call (i : ι) (k : Call)
  | act (i : ι) (go inPlace : Bool)
  | recv (env : Env) (p : Packet)

section Model

variable {ι : Type}

def Sys.start (c : Conn) : Sys ι := ⟨c,fun _ => .idle,[],[],none,none⟩

/-! ### Wait queues -/

/-- A queued thread is ready again. -/
def Pos.woken : Pos → Pos
  | .parked k => .entry k
  | p => p

variable [DecidableEq ι]

def wokenAt (pos : ι → Pos) (js : List ι) : ι → Pos :=
  fun j => if j ∈ js then (pos j).woken else pos j

/-- `waitq_release`. -/
def Sys.releaseTx (s : Sys ι) : Sys ι := { s with txWq := [], pos := wokenAt s.pos s.txWq }

def Sys.releaseRx (s : Sys ι) : Sys ι := { s with rxWq := [], pos := wokenAt s.pos s.rxWq }

/-- `waitq_signal`. -/
def Sys.signalRx (s : Sys ι) : Sys ι :=
  match s.rxWq with
  | [] => s
  | j::rest => { s with rxWq := rest, pos := wokenAt s.pos [j] }

def Sys.signal (s : Sys ι) : Deferred → Sys ι
  | .wakeWriters => s.releaseTx
  | .wakeReaders => s.releaseRx
  | .wakeReader => s.signalRx
  | _ => s

/-- All that a section has left to be done. -/
def Sys.wake (s : Sys ι) (d : List Deferred) : Sys ι := d.foldl Sys.signal s

/-! ### Steps -/

/-- Who set an exclusive flag, after a step of thread `i`. -/
def ownerOf (i : ι) (old new : Bool) (o : Option ι) : Option ι :=
  if new then if old then o else some i else none

/-- Thread `i` leaves the connection as `c` and is at `p`. -/
def Sys.move (s : Sys ι) (i : ι) (c : Conn) (p : Pos) : Sys ι where
  conn := c
  pos := Function.update s.pos i p
  txWq := s.txWq
  rxWq := s.rxWq
  txOwner := ownerOf i s.conn.txExclusive c.txExclusive s.txOwner
  rxOwner := ownerOf i s.conn.rxExclusive c.rxExclusive s.rxOwner

/-- `waitq_wait` on `tx_wq`. -/
def Sys.parkTx (s : Sys ι) (i : ι) (k : Call) : Sys ι :=
  { s.move i s.conn (.parked k) with txWq := s.txWq++[i] }

def Sys.parkRx (s : Sys ι) (i : ι) (k : Call) : Sys ι :=
  { s.move i s.conn (.parked k) with rxWq := s.rxWq++[i] }

/-- `tcp_write_wait` or `tcp_write_nowait` when it need not wait. -/
def Sys.beginWrite (s : Sys ι) (i : ι) (wake : Bool) (data : List UInt8) : Sys ι :=
  match writeStart s.conn with
  | none => s.move i s.conn .idle
  | some (c,winlen) => s.move i c (.sending wake (data.take winlen))

/-- `tcp_retransmit` and `tcp_retransmit_nowait` when they need not wait. -/
def Sys.beginResend (s : Sys ι) (i : ι) : Sys ι :=
  match retransmitStart s.conn with
  | none => s.move i s.conn .idle
  | some c => s.move i c (.resending 0)

/-- The end of the first section of a read, which releases the readers if it closed the
receiving side. -/
def Sys.took (s : Sys ι) (i : ι) (c : Conn) (p : Pos) : Sys ι :=
  if c.rxClosed && !s.conn.rxClosed then (s.move i c p).wake [.wakeReaders] else s.move i c p

/-- The first section of a call. -/
def Sys.enter (s : Sys ι) (i : ι) : Call → Sys ι
  | .write data =>
    if writeBlocked s.conn then s.parkTx i (.write data) else s.beginWrite i true data
  | .tryWrite data =>
    if writeBlocked s.conn then s.move i s.conn .idle else s.beginWrite i false data
  | .retransmit =>
    if s.conn.txExclusive && s.conn.state ≠ .closed then s.parkTx i .retransmit
    else s.beginResend i
  | .retransmitNowait =>
    if s.conn.txExclusive && s.conn.state ≠ .closed then s.move i s.conn .idle
    else s.beginResend i
  | .read len =>
    match tcpReadWait s.conn len with
    | none => s.parkRx i (.read len)
    | some (c,r) => s.took i c (if r.ret ≤ 0 then .idle else .reading r.cpylen)
  | .tryRead len =>
    let (c,r) := tcpReadNowait s.conn len
    s.took i c (if r.ret ≤ 0 then .idle else .tryReading r.cpylen)

/-- A round of the loop of `tcp_tx_send`. -/
def Sys.round (s : Sys ι) (i : ι) (wake : Bool) (rest : List UInt8) (alloc : Bool) : Sys ι :=
  match txFill s.conn rest alloc with
  | none => s.move i s.conn (.finishing wake)
  | some (c,m,rest') =>
    s.move i (txEmit c m rest' true) (if rest'.isEmpty then .finishing wake else .sending wake rest')

/-- A buffer in the loop of `tcp_tx_retransmit`, or its end. -/
def Sys.resend (s : Sys ι) (i : ι) (j : ℕ) (go inPlace : Bool) : Except Abort (Sys ι) :=
  match (if go then s.conn.txq[j]? else none) with
  | none => pure (s.move i s.conn (.finishing true))
  | some m => do
    let m ← tcpTxRetransmitOne s.conn.sndUna inPlace m
    pure (s.move i { s.conn with txq := s.conn.txq.set j m } (.resending (j+1)))

def Sys.finish (s : Sys ι) (i : ι) (wake : Bool) : Except Abort (Sys ι) := do
  let (c,d) ← tcpWriteFinish s.conn wake
  pure ((s.move i c .idle).wake d)

/-- The end of `tcp_read`: `tcp_read_finish` does nothing for a read that stopped inside no
buffer. -/
def Sys.readFinish (s : Sys ι) (i : ι) : Option ℕ → Except Abort (Sys ι)
  | none => pure (s.move i s.conn .idle)
  | some n => do
    let c ← tcpReadFinish s.conn n
    pure ((s.move i c .idle).wake [.wakeReaders])

/-- The end of `tcp_try_read`, which clears `rx_exclusive` always and wakes nobody. -/
def Sys.tryReadFinish (s : Sys ι) (i : ι) : Option ℕ → Except Abort (Sys ι)
  | none => pure (s.move i (tcpTryReadFinish s.conn) .idle)
  | some n => do
    let c ← tcpReadFinish s.conn n
    pure (s.move i c .idle)

/-- None where the step cannot happen now. -/
def Sys.attempt (s : Sys ι) : Event ι → Except Abort (Option (Sys ι))
  | .call i k => pure (if s.pos i = .idle then some (s.move i s.conn (.entry k)) else none)
  | .act i go inPlace =>
    match s.pos i with
    | .idle | .parked _ => pure none
    | .entry k => pure (some (s.enter i k))
    | .sending wake rest => pure (some (s.round i wake rest go))
    | .finishing wake => some <$> s.finish i wake
    | .resending j => some <$> s.resend i j go inPlace
    | .reading cpylen => some <$> s.readFinish i cpylen
    | .tryReading cpylen => some <$> s.tryReadFinish i cpylen
  | .recv env p => do
    let (c,d) ← tcpRxConn env s.conn p
    pure (some (({ s with conn := c } : Sys ι).wake d))

/-- None also where an assertion of the source fails. -/
def Sys.step (s : Sys ι) (e : Event ι) : Option (Sys ι) := (s.attempt e).toOption.bind id

end Model

end Vessel.TcpWake
