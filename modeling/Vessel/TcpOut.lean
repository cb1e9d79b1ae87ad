import Vessel.TcpConn

/-! The sending side of a TCP connection: writes, retransmission and the FIN. -/
namespace Vessel.Tcp

open Serial

/-! ### Writes -/

/-- A round of the loop of `tcp_tx_send` up to the store of `snd_nxt`: the buffer with the next
bytes, and the bytes that are left.  None if no buffer can be allocated. -/
def txFill (c : Conn) (rest : List UInt8) (alloc : Bool) : Option (Conn × Mbuf × List UInt8) :=
  match c.txPending with
  | some m =>
    let seglen := min rest.length (c.sndMss-m.data.length)
    some ({ c with txPending := none, sndNxt := c.sndNxt+BitVec.ofNat 32 seglen },
      { m with data := m.data++rest.take seglen, segEnd := m.segEnd+BitVec.ofNat 32 seglen },
      rest.drop seglen)
  | none =>
    let seglen := min rest.length c.sndMss
    if alloc then
      some ({ c with sndNxt := c.sndNxt+BitVec.ofNat 32 seglen },
        ⟨rest.take seglen,c.sndNxt,c.sndNxt+BitVec.ofNat 32 seglen,tcpAck⟩,rest.drop seglen)
    else none

/-- The last buffer is kept back.  The comparison with `mss` subtracts the length of a TCP header
in `size_t`, so a buffer shorter than that is not kept. -/
def txHolds (c : Conn) (m : Mbuf) (rest : List UInt8) (push : Bool) : Bool :=
  !push && rest.isEmpty && 20 ≤ m.data.length && m.data.length-20 < c.sndMss

/-- The rest of the round: the buffer is kept back, or queued and handed to the network. -/
def txEmit (c : Conn) (m : Mbuf) (rest : List UInt8) (push : Bool) : Conn :=
  if txHolds c m rest push then { c with txPending := some m }
  else
    let flags := if push && rest.isEmpty then m.flags ||| tcpPush else m.flags
    { c with
      txq := c.txq++[{ m with flags := flags }]
      txLastAck := c.rx.rcvNxt
      txLastWin := c.rx.rcvWnd }

/-- What `tcp_write_wait` waits for. -/
def writeBlocked (c : Conn) : Bool :=
  !c.txClosed && (c.state.ctorIdx < State.established.ctorIdx || c.txExclusive || tcpIsSndFull c)

/-- The end of `tcp_write_wait` and `tcp_write_nowait`, with `winlen`; none where the socket is
closed. -/
def writeStart (c : Conn) : Option (Conn × ℕ) :=
  if c.txClosed then none
  else some ({ c with txExclusive := true, acksDelayedCnt := 0, ackDelayed := false },
    (c.sndUna+c.sndWnd-c.sndNxt).toNat)

/-- A writer frees the buffers of a connection that was closed under it, and does the fast
retransmit that had to wait for it. -/
def writeCatchUp (c : Conn) : Conn × List Deferred :=
  if c.state = .closed then
    ({ c with txq := [], txPending := none },[.free (c.txq++c.txPending.toList)])
  else if c.doFastRetransmit then
    ({ c with doFastRetransmit := false },
      if c.fastRetransmitLastAck = c.sndUna then (c.txq.head?.map .retransmit).toList else [])
  else (c,[])

/-- `tcp_write_finish` and `tcp_write_finish_nowake`, which differ in that the first wakes the
threads that wait. -/
def tcpWriteFinish (c : Conn) (wake : Bool) : Except Abort (Conn × List Deferred) := do
  assertThat c.txExclusive
  let (c,d) := tcpConnAck { c with txExclusive := false }
  let c := if c.rx.rcvNxt = c.txLastAck then { c with ackDelayed := false } else c
  let (c,d') := writeCatchUp c
  pure (c,d++d'++if wake then [.wakeWriters] else [])

/-! ### Retransmission -/

/-- `tcp_tx_retransmit_one` on a buffer of `txq`.  While the driver still uses the buffer a copy
is sent; otherwise its acknowledged bytes are pulled off in place. -/
def tcpTxRetransmitOne (una : BitVec 32) (inPlace : Bool) (m : Mbuf) : Except Abort Mbuf :=
  if wrapsLte m.segEnd una || !inPlace || !wrapsLt m.segSeq una then pure m
  else do
    let m ← mbufPull m (una-m.segSeq).toNat
    pure { m with segSeq := una }

/-- `tcp_retransmit` once it has the connection, if that is not closed. -/
def retransmitStart (c : Conn) : Option Conn :=
  if c.txExclusive || c.state = .closed then none else some { c with txExclusive := true }

/-! ### Shutdown -/

/-- `tcp_conn_shutdown_tx` once no writer is busy; true where it returns 0. -/
def shutdownTxSend (c : Conn) (tx : TxResult) : Except Abort (Conn × Bool × List Deferred) := do
  let (ok,c,d) := tcpTxCtl c (tcpFin ||| tcpAck) ⟨false,false,0,0⟩ tx
  if !ok then pure (c,false,d)
  else
    let (c,d') ←
      if c.state = .established then tcpConnSetState c .finWait1
      else if c.state = .closeWait then tcpConnSetState c .lastAck
      else pure (c,[])
    pure ({ c with txClosed := true },true,d++d'++[.wakeWriters])

end Vessel.Tcp
