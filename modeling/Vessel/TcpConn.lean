import Vessel.Tcp

/-! TCP connections: the state machine behind received segments, and reads. -/
namespace Vessel.Tcp

open Serial

/-- `TCP_STATE_*`, in the order of the source. -/
inductive State
  | synSent
  | synReceived
  | established
  | finWait1
  | finWait2
  | closeWait
  | closing
  | lastAck
  | timeWait
  | closed
  deriving DecidableEq

/-- `struct tcpconn` with its PCB, without addresses, clocks and reference counts.  The
fields that the receive path shares are in `rx`. -/
structure Conn where
  state : State
  sndUna : BitVec 32
  sndNxt : BitVec 32
  sndWnd : BitVec 32
  sndWl1 : BitVec 32
  sndWl2 : BitVec 32
  iss : BitVec 32
  sndWscale : ℕ
  sndMss : ℕ
  irs : BitVec 32
  rcvWscale : ℕ
  rcvMss : ℕ
  err : ℤ
  winmax : BitVec 32
  rxClosed : Bool
  rxExclusive : Bool
  rx : Ingress
  txClosed : Bool
  txExclusive : Bool
  txLastAck : BitVec 32
  txLastWin : BitVec 32
  txPending : Option Mbuf
  txq : List Mbuf
  doFastRetransmit : Bool
  fastRetransmitLastAck : BitVec 32
  ackDelayed : Bool
  repAcks : ℕ
  acksDelayedCnt : ℕ
  deriving DecidableEq

/-- `struct tcp_options`. -/
structure Options where
  optMss : Bool
  optWscale : Bool
  mss : ℕ
  wscale : ℕ

/-- What is left to do once the lock is free. -/
inductive Deferred
  | ack
  | rst (seq : BitVec 32)
  | rstAck (ack : BitVec 32)
  | ctl (flags : Flags) (opts : Options)
  | wakeReader
  | wakeReaders
  | wakeWriters
  | retransmit (m : Mbuf)
  | free (q : List Mbuf)
  | put

def eConnReset : ℤ := 104

def tcpMinMss : ℕ := 88

def tcpFastRetransmitThresh : ℕ := 3

def tcpCalculateMss (mtu : ℕ) : ℕ := mtu-20-20

def ethDefaultMtu : ℕ := 1500

def tcpIsSndFull (c : Conn) : Bool := wrapsLte (c.sndUna + c.sndWnd) c.sndNxt

/-- `assert` on the order of states, and the writers that wait for the connection. -/
def tcpConnSetState (c : Conn) (s : State) : Except Abort (Conn × List Deferred) := do
  assertThat (c.state = .closed ∨ c.state.ctorIdx < s.ctorIdx)
  let est := State.established.ctorIdx
  let wake := if c.state.ctorIdx < est ∧ est ≤ s.ctorIdx then [.wakeWriters] else []
  pure ({ c with state := s },wake)

/-- The acknowledged buffers at the head of the queue. -/
def ackedPrefix (una : BitVec 32) : List Mbuf → List Mbuf × List Mbuf
  | [] => ([],[])
  | m::rest =>
    if wrapsGt m.segEnd una then ([],m::rest)
    else ((m::(ackedPrefix una rest).1),(ackedPrefix una rest).2)

def tcpConnAck (c : Conn) : Conn × List Deferred :=
  if c.txExclusive then (c,[])
  else ({ c with txq := (ackedPrefix c.sndUna c.txq).2 },[.free (ackedPrefix c.sndUna c.txq).1])

def tcpConnShutdownRx (c : Conn) : Conn × List Deferred :=
  if c.rxClosed then (c,[]) else ({ c with rxClosed := true },[.wakeReaders])

/-- Both queues of received buffers are freed, `rxq` not under a reader that uses it; the
count of out-of-order buffers stays. -/
def tcpConnFail (c : Conn) (err : ℤ) : Except Abort (Conn × List Deferred) := do
  let (c,d) ← tcpConnSetState { c with err := err } .closed
  let (c,d') := tcpConnShutdownRx c
  let d'' := if c.txClosed then [] else [.wakeWriters]
  let c := { c with
    txClosed := true
    txq := if c.txExclusive then c.txq else []
    txPending := if c.txExclusive then c.txPending else none
    rx := { c.rx with
      rxq := if c.rxExclusive then c.rx.rxq else []
      rxqOoo := [] } }
  pure (c,d ++ d' ++ d'' ++ [.put])

/-- How sending a control packet ends: no buffer, or a buffer that the driver took or not. -/
inductive TxResult
  | nomem
  | failed
  | sent
  deriving DecidableEq

/-- True where `tcp_tx_ctl` returns 0. -/
def tcpTxCtl (c : Conn) (flags : Flags) (opts : Options) : TxResult → Bool × Conn × List Deferred
  | .nomem => (false,c,[])
  | res =>
    let m : Mbuf := ⟨[],c.sndNxt,c.sndNxt+1,flags⟩
    let c := { c with
      sndNxt := c.sndNxt+1
      txq := c.txq ++ [m]
      txLastAck := c.rx.rcvNxt
      txLastWin := c.rx.rcvWnd }
    (res = .sent,c,[.ctl flags opts])

/-! ### Received segments -/

/-- A packet as `net_rx_one` hands it on: the fields of its TCP header, the bytes that
follow the header by the length in the IP header, and the memory after them. -/
structure Packet where
  seq : BitVec 32
  ack : BitVec 32
  win : BitVec 16
  off : Fin 16
  flags : Flags
  rest : List UInt8
  beyond : ℕ → UInt8
  rest_le : rest.length ≤ 65515

-- a header without options and an empty payload are within the bounds above
theorem five_lt_sixteen : 5 < 16 := by decide
theorem no_text_le : ([] : List UInt8).length ≤ 65515 := by decide

/-- What a section is given from outside: `snd_nxt` as loaded before the lock was taken,
and how sending a control packet would end. -/
structure Env where
  sndNxt : BitVec 32
  tx : TxResult

/-- A loop that does not end by itself is found after `len` iterations (`optLoop_endless`). -/
def tcpParseOptions (c : Conn) (mem : ℕ → UInt8) (len : ℕ) : Except Abort (Conn × Options) :=
  match scanOptions mem len with
  | none => .error .endless
  | some s =>
    let c := { c with
      sndMss := min (max (s.mss.getD 0) tcpMinMss) c.rcvMss
      sndWscale := s.wscale.getD 0 }
    let winmax := if c.winmax < 65535 then c.winmax else 65535
    let c := if s.wscale.isSome then c
      else { c with winmax := winmax, rx := { c.rx with rcvWnd := winmax }, rcvWscale := 0 }
    let c := if s.mss.isSome then c else { c with sndMss := tcpCalculateMss ethDefaultMtu }
    .ok (c,⟨s.mss.isSome,s.wscale.isSome,c.rcvMss,c.rcvWscale⟩)

def sendRst (acked : Bool) (seq ack len : BitVec 32) : Deferred :=
  if acked then .rst ack else .rstAck (seq+len)

/-- The variables of `__tcp_rx_conn` that its end looks at. -/
structure Slow where
  conn : Conn
  doAck : Bool
  doDrop : Bool
  deferred : List Deferred

/-- The label `done`. -/
def Slow.done (v : Slow) (m : Mbuf) : Conn × List Deferred :=
  let c := if v.doAck then { v.conn with ackDelayed := false, acksDelayedCnt := 0 } else v.conn
  (c,v.deferred ++ (if v.doAck then [.ack] else []) ++ if v.doDrop then [.free [m]] else [])

/-- A SYN for a connection that waits for one. -/
def rxSyn (env : Env) (c : Conn) (m : Mbuf) (ack win : BitVec 32) (mem : ℕ → UInt8)
    (optlen : ℕ) : Except Abort Slow := do
  let c := { c with irs := m.segSeq, rx := { c.rx with rcvNxt := m.segSeq+1 } }
  let (c,opts) ← tcpParseOptions c mem optlen
  let (c,d) := if has m.flags tcpAck then tcpConnAck { c with sndUna := ack } else (c,[])
  if wrapsGt c.sndUna c.iss then
    let (c,d') ← tcpConnSetState { c with sndWnd := win, sndWl1 := m.segSeq, sndWl2 := ack }
      .established
    pure ⟨c,true,true,d ++ d'⟩
  else
    let (ok,c,d') := tcpTxCtl c (tcpSyn ||| tcpAck) opts env.tx
    if !ok then pure ⟨c,false,true,d ++ d'⟩
    else
      let (c,d'') ← tcpConnSetState c .synReceived
      pure ⟨c,false,true,d ++ d' ++ d''⟩

def rxSynSent (env : Env) (c : Conn) (m : Mbuf) (ack win len : BitVec 32) (mem : ℕ → UInt8)
    (optlen : ℕ) : Except Abort Slow := do
  if has m.flags tcpAck && (wrapsLte ack c.iss || wrapsGt ack env.sndNxt) then
    pure ⟨c,false,true,[sendRst false m.segSeq ack len]⟩
  else if has m.flags tcpAck && has m.flags tcpRst && wrapsLte c.sndUna ack &&
      wrapsLte ack env.sndNxt then
    let (c,d) ← tcpConnFail c eConnReset
    pure ⟨c,false,true,d⟩
  else if !has m.flags tcpAck && has m.flags tcpRst then pure ⟨c,false,true,[]⟩
  else if has m.flags tcpSyn then rxSyn env c m ack win mem optlen
  else pure ⟨c,false,true,[]⟩

/-- The segment is the one to take the send window from. -/
def windowDue (c : Conn) (seq ack : BitVec 32) : Bool :=
  wrapsLt c.sndWl1 seq || (c.sndWl1 = seq && wrapsLte c.sndWl2 ack)

/-- `snd_una` and the send window after an acknowledgment in range: the connection,
`ack_same`, `wnd_updated` and the buffers to free. -/
def ackUpdate (c : Conn) (seq ack win : BitVec 32) : Conn × Bool × Bool × List Deferred :=
  let ackSame := decide (c.sndUna = ack)
  let (c,d) := if ackSame then (c,[]) else tcpConnAck { c with sndUna := ack }
  if windowDue c seq ack && (!ackSame || c.sndWnd ≤ win) then
    ({ c with sndWnd := win, sndWl1 := seq, sndWl2 := ack },ackSame,
      c.sndWnd ≠ win || c.sndWl2 ≠ ack,d)
  else (c,ackSame,false,d)

/-- Duplicate acknowledgments and the fast retransmit. -/
def dupAck (c : Conn) (ack len : BitVec 32) (ackSame wndUpdated : Bool) : Conn × List Deferred :=
  if ackSame && c.sndUna ≠ c.sndNxt && len = 0 && !wndUpdated then
    let n := c.repAcks+1
    if n ≥ tcpFastRetransmitThresh then
      if c.txExclusive then
        ({ c with doFastRetransmit := true, fastRetransmitLastAck := ack, repAcks := 0 },[])
      else ({ c with repAcks := 0 },(c.txq.head?.map .retransmit).toList)
    else ({ c with repAcks := n },[])
  else if c.sndUna = ack then ({ c with repAcks := 0 },[])
  else (c,[])

/-- States that wait for the acknowledgment of a FIN; true where the segment is done with. -/
def finAcked (env : Env) (c : Conn) : Except Abort (Bool × Conn × List Deferred) := do
  if c.state = .finWait1 ∧ c.sndUna = env.sndNxt then
    pure (false,← tcpConnSetState c .finWait2)
  else if c.state = .closing ∧ c.sndUna = env.sndNxt then
    pure (false,← tcpConnSetState c .timeWait)
  else if c.state = .lastAck ∧ c.sndUna = env.sndNxt then
    let (c,d) ← tcpConnSetState c .closed
    pure (true,c,d ++ [.put])
  else pure (false,c,[])

/-- States that take text. -/
def takesText (s : State) : Bool := s = .established || s = .finWait1 || s = .finWait2

/-- The reader to wake and the delayed acknowledgment, after `tcp_rx_text`. -/
def textDone (v : Slow) (text : Option Text) : Slow :=
  let cnt := v.conn.acksDelayedCnt+1
  let rx := text.elim v.conn.rx Text.rx
  let c := { v.conn with
    rx := rx
    acksDelayedCnt := cnt
    ackDelayed := v.conn.ackDelayed || cnt < 2 }
  ⟨c,v.doAck || cnt ≥ 2 || !rx.rxqOoo.isEmpty,text.isNone,
    v.deferred ++ if text.elim false Text.wake then [.wakeReader] else []⟩

/-- Step 7; the last component is `fin`. -/
def rxSegmentText (v : Slow) (m : Mbuf) (len : BitVec 32) : Except Abort (Slow × Bool) := do
  if len > 0 ∧ takesText v.conn.state then
    let text ← tcpRxText v.conn.rx { m with segEnd := m.segSeq + len }
    let wake := text.elim false Text.wake
    assertThat (!wake || !(textDone v text).conn.rx.rxq.isEmpty)
    assertThat (!wake || !(textDone v text).doDrop)
    pure (textDone v text,text.elim false Text.fin)
  else pure (v,false)

/-- Step 8. -/
def rxFin (env : Env) (v : Slow) : Except Abort Slow := do
  let c := v.conn
  assertThat (c.state ≠ .synReceived)
  if c.state = .established then
    let (c,d) ← tcpConnSetState c .closeWait
    pure { v with conn := c, deferred := v.deferred ++ d }
  else if c.state = .finWait1 then
    assertThat (c.sndUna ≠ env.sndNxt)
    let (c,d) ← tcpConnSetState c .closing
    pure { v with conn := c, deferred := v.deferred ++ d }
  else if c.state = .finWait2 then
    let (c,d) ← tcpConnSetState c .timeWait
    pure { v with conn := c, doAck := true, deferred := v.deferred ++ d }
  else pure v

/-- Steps 6 to 8, for a segment that passed the acceptability test. -/
def rxAccepted (env : Env) (v : Slow) (m : Mbuf) (ack len : BitVec 32) (ackSame wndUpdated : Bool) :
    Except Abort Slow := do
  let (c,d) := dupAck v.conn ack len ackSame wndUpdated
  let (finished,c,d') ← finAcked env c
  let v := { v with conn := c, deferred := v.deferred ++ d ++ d' }
  if finished then pure v
  else
    let (v,fin) ← rxSegmentText v m len
    if fin then rxFin env v else pure v

/-- A connection in `SYN_RECEIVED` is established by an acknowledgment. -/
def establish (c : Conn) (seq ack win : BitVec 32) : Except Abort (Conn × List Deferred) :=
  if c.state = .synReceived then
    tcpConnSetState { c with sndWnd := win, sndWl1 := seq, sndWl2 := ack } .established
  else pure (c,[])

/-- Acknowledgment and window update; a segment that is not acceptable ends here. -/
def rxAckUpdate (env : Env) (v : Slow) (m : Mbuf) (ack win len : BitVec 32) (acceptable : Bool) :
    Except Abort Slow :=
  let c := v.conn
  let inRange := wrapsLte c.sndUna ack && wrapsLte ack env.sndNxt
  if !inRange && wrapsGt ack env.sndNxt then pure { v with doAck := true }
  else
    let u := if inRange then ackUpdate c m.segSeq ack win else (c,false,false,[])
    let d := if tcpIsSndFull c && !tcpIsSndFull u.1 then [.wakeWriters] else []
    let v := { v with conn := u.1, deferred := v.deferred ++ u.2.2.2 ++ d }
    if !acceptable then pure v else rxAccepted env v m ack len u.2.1 u.2.2.1

/-- The label `do_ack`, where a segment that is not acceptable comes too if the send window
was full. -/
def rxAck (env : Env) (v : Slow) (m : Mbuf) (ack win len : BitVec 32) (acceptable : Bool) :
    Except Abort Slow := do
  let c := v.conn
  if !has m.flags tcpAck then pure v
  else if c.state = .synReceived ∧ ¬(wrapsLte c.sndUna ack && wrapsLte ack env.sndNxt) then
    pure { v with doDrop := true, deferred := v.deferred ++ [sendRst true m.segSeq ack len] }
  else
    let (c,d) ← establish c m.segSeq ack win
    rxAckUpdate env { v with conn := c, deferred := v.deferred ++ d } m ack win len acceptable

/-- `len` in `__tcp_rx_conn`: the numbers that a segment takes. -/
def Mbuf.spanWord (m : Mbuf) : BitVec 32 :=
  m.segEnd - m.segSeq + if has m.flags tcpFin then 1 else 0

/-- `__tcp_rx_conn` up to the label `done`. -/
def rxSlow (env : Env) (c : Conn) (m : Mbuf) (ack win : BitVec 32) (mem : ℕ → UInt8)
    (optlen : ℕ) : Except Abort Slow :=
  if c.state = .closed then
    pure ⟨c,false,true,if has m.flags tcpRst then [] else [sendRst false m.segSeq ack m.spanWord]⟩
  else if c.state = .synSent then rxSynSent env c m ack win m.spanWord mem optlen
  else if !isAcceptable c.rx m.spanWord m.segSeq then
    if !tcpIsSndFull c then pure ⟨c,!has m.flags tcpRst,true,[]⟩
    else rxAck env ⟨c,!has m.flags tcpRst,true,[]⟩ m ack win m.spanWord false
  else if has m.flags tcpRst then do
    let (c,d) ← tcpConnFail c eConnReset
    pure ⟨c,false,true,d⟩
  else if has m.flags tcpSyn then do
    let (c,d) ← tcpConnFail c eConnReset
    pure ⟨c,false,true,sendRst (has m.flags tcpAck) m.segSeq ack m.spanWord::d⟩
  else rxAck env ⟨c,false,true,[]⟩ m ack win m.spanWord true

/-- `__tcp_rx_conn`. -/
def tcpRxConnSlow (env : Env) (c : Conn) (m : Mbuf) (ack win : BitVec 32) (mem : ℕ → UInt8)
    (optlen : ℕ) : Except Abort (Conn × List Deferred) :=
  (fun v => Slow.done v m) <$> rxSlow env c m ack win mem optlen

def tcpSlowpathFlags : Flags := tcpFin ||| tcpRst ||| tcpUrg

/-- The tests for the slow path. -/
def slowPath (env : Env) (c : Conn) (m : Mbuf) (ack len : BitVec 32) : Bool :=
  has m.flags tcpSlowpathFlags || len = 0 || wrapsGt ack env.sndNxt ||
    c.state ≠ .established || tcpIsSndFull c || m.segSeq ≠ c.rx.rcvNxt || !c.rx.rxqOoo.isEmpty ||
    c.rx.rcvWnd < len

/-- The acknowledgment and the send window on the fast path. -/
def fastAck (c : Conn) (seq ack win : BitVec 32) : Conn × List Deferred :=
  if wrapsLte c.sndUna ack then
    let (c,d) := if c.sndUna ≠ ack then tcpConnAck { c with sndUna := ack, repAcks := 0 } else (c,[])
    if windowDue c seq ack then
      ({ c with sndWnd := win, sndWl1 := seq, sndWl2 := ack, repAcks := 0 },d)
    else (c,d)
  else (c,[])

/-- The rest of `tcp_rx_conn` when the segment is regular. -/
def tcpRxConnFast (c : Conn) (m : Mbuf) (ack win len : BitVec 32) : Conn × List Deferred :=
  let (c,d) := fastAck c m.segSeq ack win
  let wake := if !c.rx.rxq.isEmpty || has m.flags tcpPush then [.wakeReader] else []
  let cnt := c.acksDelayedCnt+1
  let c := { c with
    rx := { c.rx with
      rcvNxt := m.segEnd
      rcvWnd := c.rx.rcvWnd - len
      rxq := c.rx.rxq ++ [m] }
    acksDelayedCnt := if cnt ≥ 2 then 0 else cnt
    ackDelayed := cnt < 2 }
  (c,d ++ wake ++ if cnt ≥ 2 then [.ack] else [])

/-- The length of the header, in words of 32 bits, and the length of the text. -/
def Packet.textLen (p : Packet) : BitVec 32 :=
  BitVec.ofNat 32 (20+p.rest.length) - BitVec.ofNat 32 (4*p.off)

/-- `win`, scaled. -/
def Packet.window (p : Packet) (c : Conn) : BitVec 32 := p.win.setWidth 32 <<< c.sndWscale

def tcpRxConn (env : Env) (c : Conn) (p : Packet) : Except Abort (Conn × List Deferred) := do
  let m : Mbuf := ⟨p.rest,p.seq,p.seq + p.textLen,p.flags⟩
  if 4*p.off.val < 20 then pure (c,[.free [m]])
  else if p.rest.length < p.textLen.toNat ∨ c.rcvMss < p.textLen.toNat then pure (c,[.free [m]])
  else
    let optlen := 4*p.off.val - 20
    let m ← mbufPull m optlen
    if slowPath env c m p.ack p.textLen then
      tcpRxConnSlow env c m p.ack (p.window c) (optArea p.rest p.beyond) optlen
    else pure (tcpRxConnFast c m p.ack (p.window c) p.textLen)

/-! ### Reads -/

/-- The buffers that a read takes: those it takes whole, whether it stops inside the next
one, the bytes it takes in all, and what is left of the queue. -/
structure Take where
  whole : List Mbuf
  inside : Bool
  readlen : ℕ
  left : List Mbuf
  sawFin : Bool

/-- The loop of `tcp_read_wait`, with `readlen` bytes taken before. -/
def takeLoop (len : ℕ) : List Mbuf → (readlen : ℕ) → Take
  | [], readlen => ⟨[],false,readlen,[],false⟩
  | m::rest, readlen =>
    if len ≤ readlen then ⟨[],false,readlen,m::rest,false⟩
    else
      let fin := has m.flags tcpFin
      if fin ∧ m.data.length = 0 then ⟨[],false,readlen,m::rest,true⟩
      else if len - readlen < m.data.length then ⟨[],true,len,m::rest,fin⟩
      else
        let t := takeLoop len rest (readlen + m.data.length)
        { t with whole := m::t.whole, sawFin := fin || t.sawFin }

/-- A read that need not wait: the return value, the bytes copied, and how many bytes of the
first buffer in the queue are copied outside the lock. -/
structure ReadResult where
  ret : ℤ
  bytes : List UInt8
  cpylen : Option ℕ

/-- The section of `tcp_read_wait` once there is something to do. -/
def takeText (c : Conn) (len : ℕ) : Conn × ReadResult :=
  let t := takeLoop len c.rx.rxq 0
  let whole := t.whole.flatMap Mbuf.data
  let cpylen := len - whole.length
  let c := { c with
    rxClosed := c.rxClosed || t.sawFin
    rxExclusive := c.rxExclusive || t.inside
    rx := { c.rx with rxq := t.left, rcvWnd := c.rx.rcvWnd + BitVec.ofNat 32 t.readlen } }
  if t.inside then
    (c,⟨t.readlen,whole ++ (t.left.head?.elim [] Mbuf.data).take cpylen,some cpylen⟩)
  else (c,⟨t.readlen,whole,none⟩)

/-- None while the caller is blocked. -/
def tcpReadWait (c : Conn) (len : ℕ) : Option (Conn × ReadResult) :=
  if !c.rxClosed && (c.rxExclusive || c.rx.rxq.isEmpty) then none
  else if c.rxClosed then some (c,⟨-c.err,[],none⟩)
  else some (takeText c len)

def tcpReadNowait (c : Conn) (len : ℕ) : Conn × ReadResult :=
  if c.rxExclusive || c.rx.rxq.isEmpty then (c,⟨0,[],none⟩)
  else if c.rxClosed then (c,⟨-c.err,[],none⟩)
  else takeText c len

/-- The end of a read that stopped inside a buffer: `cpylen` bytes are pulled off it and
`rx_exclusive` is given back.  The buffer is the first of the queue. -/
def tcpReadFinish (c : Conn) (cpylen : ℕ) : Except Abort Conn :=
  match c.rx.rxq with
  | [] => .ok { c with rxExclusive := false }
  | m::rest => do
    let m ← mbufPull m cpylen
    pure { c with
      rxExclusive := false
      rx := { c.rx with rxq := { m with segSeq := m.segSeq + BitVec.ofNat 32 cpylen }::rest } }

/-- The end of `tcp_try_read` when it stopped inside no buffer; `rx_exclusive` is cleared
all the same. -/
def tcpTryReadFinish (c : Conn) : Conn := { c with rxExclusive := false }

end Vessel.Tcp
