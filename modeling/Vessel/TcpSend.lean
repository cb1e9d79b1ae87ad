import Vessel.TcpOwes
import Vessel.TcpOut
import Vessel.TcpRun
import Vessel.Machine

/-! A connection with its writers, its retransmissions and the calls that shut it down, between
their sections under the lock.  While `tx_exclusive` is set only its owner uses `txq`,
`tx_pending` and `snd_nxt`, so a round of `tcp_tx_send` is one step. -/
namespace Vessel.TcpSend

open Tcp Serial

/-- A call of `tcp_write`, `tcp_try_write` or `tcp_writev` past its wait.  `data` is all that the
caller offers, of which `done` bytes are copied so far, and `edge` is `snd_una` + `snd_wnd` as
read under the lock. -/
structure Call where
  vec : Bool
  wake : Bool
  data : List UInt8
  todo : List (List UInt8)
  winlen : ℕ
  edge : BitVec 32
  done : ℕ

/-- Who has `tx_exclusive`, and where it is: at the top of the loop of `tcp_writev`, in
`tcp_tx_send` with `pos` bytes sent and `rest` to send, before `tcp_write_finish`, or at buffer
`i` of `tcp_tx_retransmit`. -/
inductive Writer
  | idle
  | next (k : Call)
  | sending (k : Call) (rest : List UInt8) (pos : ℕ) (push : Bool)
  | finishing (k : Call)
  | resending (i : ℕ)

/-- A call of `tcp_shutdown` or `tcp_close` that shuts down the sending side. -/
structure Closer where
  rx : Bool
  close : Bool

/-- `loads` are the values of `snd_nxt` that calls of `tcp_rx_conn` have loaded, `closers` the
calls that wait for `tx_exclusive`.  Three fields are history: what finished calls reported as
written, what was appended to `txq`, and the numbers of the FINs. -/
structure Sys extends Tcp.Sys where
  writer : Writer
  loads : List (BitVec 32)
  closers : List Closer
  written : List UInt8
  handed : List UInt8
  fins : List (BitVec 32)

def Sys.start (c : Conn) : Sys := ⟨.start c,.idle,[],[],[],[],[]⟩

inductive Event
  | load
  | recv (i : ℕ) (tx : TxResult) (p : Packet)
  | write (data : List UInt8)
  | tryWrite (data : List UInt8)
  | writev (iov : List (List UInt8))
  | next
  | round (alloc : Bool)
  | finish
  | retransmit
  | resend (inPlace : Bool)
  | shutdown (k : Closer) (tx : TxResult) (err : ℤ)
  | shutdownGo (i : ℕ) (tx : TxResult) (err : ℤ)
  | timeWaitOver
  | abort (err : ℤ)
  | receive (ev : Tcp.Event)

/-! ### Steps -/

/-- `tcp_write_wait` or `tcp_write_nowait` when it need not wait. -/
def Sys.begin (s : Sys) (vec wake : Bool) (iov : List (List UInt8)) : Sys :=
  match writeStart s.conn with
  | none => s
  | some (c,winlen) =>
    let k : Call := ⟨vec,wake,iov.flatten,iov,winlen,s.conn.sndUna+s.conn.sndWnd,0⟩
    { s with
      conn := c
      writer := if vec then .next k else .sending { k with todo := [] } (k.data.take winlen) 0 true }

/-- The top of the loop of `tcp_writev`. -/
def Call.nextIov (k : Call) : Writer :=
  match k.todo with
  | [] => .finishing k
  | iov::more =>
    if k.winlen = 0 then .finishing k
    else .sending { k with todo := more } (iov.take k.winlen) 0
      (more.isEmpty && iov.length ≤ k.winlen)

/-- `tcp_tx_send` has returned, after `pos` bytes. -/
def Call.sent (k : Call) (pos : ℕ) : Writer :=
  if k.vec && 0 < pos then .next { k with winlen := k.winlen-pos } else .finishing k

/-- A round of the loop of `tcp_tx_send`. -/
def Sys.round (s : Sys) (k : Call) (rest : List UInt8) (pos : ℕ) (push alloc : Bool) : Sys :=
  match txFill s.conn rest alloc with
  | none => { s with writer := k.sent pos }
  | some (c,m,rest') =>
    let seglen := rest.length-rest'.length
    let k := { k with done := k.done+seglen }
    { s with
      conn := txEmit c m rest' push
      handed := if txHolds c m rest' push then s.handed else s.handed++m.data
      writer := if rest'.isEmpty then k.sent (pos+seglen) else .sending k rest' (pos+seglen) push }

/-- `tcp_write_finish`; the call returns. -/
def Sys.finish (s : Sys) (wake : Bool) (reported : List UInt8) : Except Abort Sys := do
  let (c,_) ← tcpWriteFinish s.conn wake
  pure { s with conn := c, writer := .idle, written := s.written++reported }

/-- A buffer in the loop of `tcp_tx_retransmit`. -/
def Sys.resend (s : Sys) (i : ℕ) (inPlace : Bool) (m : Mbuf) : Except Abort Sys := do
  let m ← tcpTxRetransmitOne s.conn.sndUna inPlace m
  pure { s with conn := { s.conn with txq := s.conn.txq.set i m }, writer := .resending (i+1) }

/-- The rest of a call that shuts down, once no writer is busy; `err` is the error where
`tcp_tx_ctl` returns one. -/
def Sys.shut (s : Sys) (k : Closer) (tx : TxResult) (err : ℤ) : Except Abort Sys := do
  let (c,ok,_) ← shutdownTxSend s.conn tx
  let fins := if tx = .nomem then s.fins else s.fins++[s.conn.sndNxt]
  if ok then
    pure { s with conn := if k.rx || k.close then (tcpConnShutdownRx c).1 else c, fins := fins }
  else if k.close then
    let (c,_) ← tcpConnFail c err
    pure { s with conn := c, fins := fins }
  else pure { s with conn := c, fins := fins }

/-- The events of the receive side that leave the sending side alone. -/
def reads : Tcp.Event → Bool
  | .read _ | .tryRead _ | .finish _ | .tryFinish | .shutdown => true
  | _ => false

/-- None where the section cannot run now. -/
def Sys.attempt (s : Sys) : Event → Except Abort (Option Sys)
  | .load => pure (some { s with loads := s.loads++[s.conn.sndNxt] })
  | .recv i tx p =>
    match s.loads[i]? with
    | none => pure none
    | some nxt => do
      let t ← s.toSys.step (.recv ⟨nxt,tx⟩ p)
      pure (t.map fun t => { s with toSys := t, loads := s.loads.eraseIdx i })
  | .write data => pure (if writeBlocked s.conn then none else some (s.begin false true [data]))
  | .tryWrite data =>
    pure (some (if writeBlocked s.conn then s else s.begin false false [data]))
  | .writev iov => pure (if writeBlocked s.conn then none else some (s.begin true true iov))
  | .next =>
    match s.writer with
    | .next k => pure (some { s with writer := k.nextIov })
    | _ => pure none
  | .round alloc =>
    match s.writer with
    | .sending k rest pos push => pure (some (s.round k rest pos push alloc))
    | _ => pure none
  | .finish =>
    match s.writer with
    | .finishing k => some <$> s.finish k.wake (k.data.take k.done)
    | .resending _ => some <$> s.finish true []
    | _ => pure none
  | .retransmit =>
    pure ((retransmitStart s.conn).map fun c => { s with conn := c, writer := .resending 0 })
  | .resend inPlace =>
    match s.writer with
    | .resending i =>
      match s.conn.txq[i]? with
      | some m => some <$> s.resend i inPlace m
      | none => pure none
    | _ => pure none
  | .shutdown k tx err =>
    if s.conn.txClosed then
      pure (some { s with
        conn := if k.rx || k.close then (tcpConnShutdownRx s.conn).1 else s.conn })
    else do
      assertThat (State.established.ctorIdx ≤ s.conn.state.ctorIdx)
      if s.conn.txExclusive then pure (some { s with closers := s.closers++[k] })
      else some <$> s.shut k tx err
  | .shutdownGo i tx err =>
    match s.closers[i]? with
    | none => pure none
    | some k =>
      if s.conn.txExclusive then pure none
      else some <$> ({ s with closers := s.closers.eraseIdx i } : Sys).shut k tx err
  | .timeWaitOver =>
    if s.conn.state = .timeWait then do
      let (c,_) ← tcpConnSetState s.conn .closed
      pure (some { s with conn := c })
    else pure none
  | .abort err => do
    let (c,_) ← tcpConnFail s.conn err
    pure (some { s with conn := c })
  | .receive ev =>
    if reads ev then do
      let t ← s.toSys.step ev
      pure (t.map fun t => { s with toSys := t })
    else pure none

/-- None also where an assertion of the source fails. -/
def Sys.step (s : Sys) (ev : Event) : Option Sys := (s.attempt ev).toOption.bind id

/-! ### What the sections do -/

section Sections

variable {c c' : Conn} {d : List Deferred} {s t : Sys}

/-- The end of a write or of a retransmission. -/
structure Finished (c c' : Conn) : Prop where
  state : c'.state = c.state
  sndUna : c'.sndUna = c.sndUna
  sndNxt : c'.sndNxt = c.sndNxt
  sndWnd : c'.sndWnd = c.sndWnd
  sndWscale : c'.sndWscale = c.sndWscale
  sndMss : c'.sndMss = c.sndMss
  txClosed : c'.txClosed = c.txClosed
  txExclusive : c'.txExclusive = false
  txq : c.state ≠ .closed → c'.txq = (ackedPrefix c.sndUna c.txq).2
  txPending : c.state ≠ .closed → c'.txPending = c.txPending

theorem writeCatchUp_keeps (c : Conn) : (writeCatchUp c).1 = { c with
    txq := if c.state = .closed then [] else c.txq
    txPending := if c.state = .closed then none else c.txPending
    doFastRetransmit := c.state = .closed && c.doFastRetransmit } := by
  unfold writeCatchUp
  split
  · rename_i hs
    simp [hs]
  split
  · rename_i hs hd
    simp [hs]
  · rename_i hs hd
    simp [hs,Bool.not_eq_true] at hd ⊢
    rw [← hd]

theorem tcpWriteFinish_finished {wake : Bool} (h : tcpWriteFinish c wake = .ok (c',d)) :
    Finished c c' := by
  rw [tcpWriteFinish] at h
  obtain ⟨_,-,h⟩ := bind_eq_ok h
  simp only [tcpConnAck,Bool.false_eq_true,if_false] at h
  generalize hu : (ite (c.rx.rcvNxt = c.txLastAck) _ _ : Conn) = u at h
  have hu' : u = { c with
      txExclusive := false
      txq := (ackedPrefix c.sndUna c.txq).2
      ackDelayed := u.ackDelayed } := by
    rw [← hu]
    split <;> rfl
  cases h
  rw [writeCatchUp_keeps,hu']
  exact ⟨rfl,rfl,rfl,rfl,rfl,rfl,rfl,rfl,fun hs => if_neg hs,fun hs => if_neg hs⟩

/-- The bytes of the buffer that is kept back. -/
def pendingData (c : Conn) : List UInt8 := (c.txPending.map Mbuf.data).getD []

/-- The next `n` bytes are copied into the buffer kept back, or into a new one. -/
structure Filled (c : Conn) (rest : List UInt8) (c' : Conn) (m : Mbuf) (n : ℕ) : Prop where
  fits : n ≤ rest.length
  short : n ≤ c.sndMss-(pendingData c).length
  data : m.data = pendingData c++rest.take n
  segSeq : m.segSeq = (c.txPending.map Mbuf.segSeq).getD c.sndNxt
  segEnd : m.segEnd = (c.txPending.map Mbuf.segEnd).getD c.sndNxt+BitVec.ofNat 32 n
  conn : c' = { c with txPending := none, sndNxt := c.sndNxt+BitVec.ofNat 32 n }

theorem txFill_filled {m : Mbuf} {rest rest' : List UInt8} {alloc : Bool}
    (h : txFill c rest alloc = some (c',m,rest')) : ∃ n,rest' = rest.drop n ∧ Filled c rest c' m n := by
  unfold txFill at h
  split at h
  · rename_i m₀ hp
    cases h
    refine ⟨_,rfl,min_le_left _ _,?_,?_,?_,?_,rfl⟩
    · simp [pendingData,hp]
    all_goals simp [pendingData,hp]
  · rename_i hp
    split at h
    · cases h
      refine ⟨_,rfl,min_le_left _ _,?_,?_,?_,?_,?_⟩
      · simp [pendingData,hp]
      · simp [pendingData,hp]
      · simp [hp]
      · simp [hp]
      · rw [← hp]
    · cases h

theorem txFill_eq_none {rest : List UInt8} {alloc : Bool} :
    txFill c rest alloc = none ↔ c.txPending = none ∧ alloc = false := by
  unfold txFill
  cases hp : c.txPending with
  | some m => simp
  | none => cases alloc <;> simp

/-- The next state when the FIN is sent. -/
def onShutdown : State → State
  | .established => .finWait1
  | .closeWait => .lastAck
  | s => s

/-- The end of a call that shuts down: the connection fails, nothing is sent, or the FIN takes
the next number. -/
inductive Shut (c : Conn) (fins : List (BitVec 32)) (c' : Conn) : List (BitVec 32) → Prop
  | failed {fins' : List (BitVec 32)} (state : c'.state = .closed)
    (txExclusive : c'.txExclusive = c.txExclusive) : Shut c fins c' fins'
  | refused (keeps : SendKeeps c c') (sndWnd : c'.sndWnd = c.sndWnd) (state : c'.state = c.state) :
    Shut c fins c' fins
  | queued (sndNxt : c'.sndNxt = c.sndNxt+1) (txPending : c'.txPending = c.txPending)
    (txExclusive : c'.txExclusive = c.txExclusive)
    (state : c'.state = c.state ∧ c'.txClosed = c.txClosed ∨
      c'.state = onShutdown c.state ∧ c'.txClosed = true) : Shut c fins c' (fins++[c.sndNxt])

theorem shutdownTxSend_shut {tx : TxResult} {ok : Bool} (fins : List (BitVec 32))
    (h : shutdownTxSend c tx = .ok (c',ok,d)) :
    Shut c fins c' (if tx = .nomem then fins else fins++[c.sndNxt]) := by
  cases tx with
  | nomem =>
    cases h
    exact .refused (SendKeeps.refl c) rfl rfl
  | failed =>
    cases h
    exact .queued rfl rfl rfl (Or.inl ⟨rfl,rfl⟩)
  | sent =>
    rw [shutdownTxSend] at h
    dsimp only [tcpTxCtl] at h
    simp only [decide_true,Bool.not_true,Bool.false_eq_true,if_false] at h
    split at h
    · rename_i hs
      obtain ⟨_,-,h⟩ := setState_bind h
      cases h
      exact .queued rfl rfl rfl (Or.inr ⟨by rw [hs]; rfl,rfl⟩)
    split at h
    · rename_i hs
      obtain ⟨_,-,h⟩ := setState_bind h
      cases h
      exact .queued rfl rfl rfl (Or.inr ⟨by rw [hs]; rfl,rfl⟩)
    · rename_i hest hwait
      cases h
      refine .queued rfl rfl rfl (Or.inr ⟨?_,rfl⟩)
      change c.state = onShutdown c.state
      cases hs : c.state <;> first | rfl | contradiction

theorem Shut.exclusive {fins fins' : List (BitVec 32)} (h : Shut c fins c' fins') :
    c'.txExclusive = c.txExclusive := by
  cases h with
  | failed _ txExclusive => exact txExclusive
  | refused keeps => exact keeps.txExclusive
  | queued _ _ txExclusive => exact txExclusive

theorem tcpConnShutdownRx_shut {fins fins' : List (BitVec 32)} (h : Shut c fins c' fins') :
    Shut c fins (tcpConnShutdownRx c').1 fins' := by
  obtain ⟨hk,hw,hs⟩ := tcpConnShutdownRx_sends c'
  cases h with
  | failed state txExclusive => exact .failed (hs.trans state) (hk.txExclusive.trans txExclusive)
  | refused keeps sndWnd state => exact .refused (keeps.trans hk) (hw.trans sndWnd) (hs.trans state)
  | queued sndNxt txPending txExclusive state =>
    refine .queued (hk.sndNxt.trans sndNxt) (hk.txPending.trans txPending)
      (hk.txExclusive.trans txExclusive) ?_
    rw [hs,hk.txClosed]
    exact state

theorem shut_cases {k : Closer} {tx : TxResult} {err : ℤ} (h : s.shut k tx err = .ok t) :
    ∃ c fins, t = { s with conn := c, fins := fins } ∧ Shut s.conn s.fins c fins := by
  obtain ⟨⟨c,ok,d⟩,hsend,h⟩ := bind_eq_ok h
  have hshut := shutdownTxSend_shut s.fins hsend
  dsimp only at h
  split at h
  · cases h
    refine ⟨_,_,rfl,?_⟩
    split
    · exact tcpConnShutdownRx_shut hshut
    · exact hshut
  split at h
  · obtain ⟨⟨c₁,d₁⟩,hfail,h⟩ := bind_eq_ok h
    obtain ⟨hs,-,hex,-⟩ := tcpConnFail_closes hfail
    cases h
    exact ⟨_,_,rfl,.failed hs (hex.trans hshut.exclusive)⟩
  · cases h
    exact ⟨_,_,rfl,hshut⟩

theorem reads_keep {n n' : Tcp.Sys} {ev : Tcp.Event} (hev : reads ev = true)
    (h : n.step ev = .ok (some n')) : SendKeeps n.conn n'.conn ∧ n'.conn.sndWnd = n.conn.sndWnd ∧
      n'.conn.state = n.conn.state := by
  have htake : ∀ len, SendKeeps n.conn (takeText n.conn len).1 ∧
      (takeText n.conn len).1.sndWnd = n.conn.sndWnd ∧
      (takeText n.conn len).1.state = n.conn.state := fun len => by
    rw [takeText_fst]
    exact ⟨⟨rfl,rfl,rfl,rfl,rfl,rfl,rfl,rfl,rfl⟩,rfl,rfl⟩
  cases ev with
  | recv env p => contradiction
  | fail err => contradiction
  | send c => contradiction
  | shutdown =>
    cases h
    exact tcpConnShutdownRx_sends n.conn
  | tryFinish =>
    by_cases htries : n.tries = 0
    · simp [Tcp.Sys.step,htries,pure,Except.pure] at h
    · simp only [Tcp.Sys.step,htries,if_false] at h
      cases h
      exact ⟨⟨rfl,rfl,rfl,rfl,rfl,rfl,rfl,rfl,rfl⟩,rfl,rfl⟩
  | read len =>
    simp only [Tcp.Sys.step,tcpReadWait] at h
    split at h
    · cases h
    split at h
    · cases h
      exact ⟨SendKeeps.refl _,rfl,rfl⟩
    · cases h
      exact htake len
  | tryRead len =>
    simp only [Tcp.Sys.step,tcpReadNowait] at h
    cases h
    split
    · exact ⟨SendKeeps.refl _,rfl,rfl⟩
    split
    · exact ⟨SendKeeps.refl _,rfl,rfl⟩
    · exact htake len
  | finish i =>
    simp only [Tcp.Sys.step] at h
    split at h
    · cases h
    · obtain ⟨c₁,hfin,h⟩ := bind_eq_ok h
      cases h
      unfold tcpReadFinish at hfin
      split at hfin
      · cases hfin
        exact ⟨⟨rfl,rfl,rfl,rfl,rfl,rfl,rfl,rfl,rfl⟩,rfl,rfl⟩
      · obtain ⟨_,-,hfin⟩ := bind_eq_ok hfin
        cases hfin
        exact ⟨⟨rfl,rfl,rfl,rfl,rfl,rfl,rfl,rfl,rfl⟩,rfl,rfl⟩

end Sections

/-- A writer has just been let in. -/
def Sys.entered (s : Sys) (w : Writer) : Sys :=
  { s with
    conn := { s.conn with txExclusive := true, acksDelayedCnt := 0, ackDelayed := false }
    writer := w }

/-- The call that a writer begins. -/
def Sys.call (s : Sys) (vec wake : Bool) (iov : List (List UInt8)) : Call :=
  ⟨vec,wake,iov.flatten,iov,(s.conn.sndUna+s.conn.sndWnd-s.conn.sndNxt).toNat,
    s.conn.sndUna+s.conn.sndWnd,0⟩

/-- All that a step can do. -/
inductive Moves (s : Sys) : Event → Sys → Prop
  | load : Moves s .load { s with loads := s.loads++[s.conn.sndNxt] }
  | recv {i : ℕ} {tx : TxResult} {p : Packet} {nxt : BitVec 32} {net : Tcp.Sys}
    (loaded : s.loads[i]? = some nxt) (received : Received ⟨nxt,tx⟩ p s.conn net.conn) :
    Moves s (.recv i tx p) { s with toSys := net, loads := s.loads.eraseIdx i }
  | quiet {ev : Event} (net : Tcp.Sys) (keeps : SendKeeps s.conn net.conn)
    (sndWnd : net.conn.sndWnd = s.conn.sndWnd) (state : net.conn.state = s.conn.state) :
    Moves s ev { s with toSys := net }
  | write {ev : Event} {wake : Bool} {data : List UInt8} (ready : writeBlocked s.conn = false)
    (opened : s.conn.txClosed = false) :
    Moves s ev (s.entered (.sending { s.call false wake [data] with todo := [] }
      (data.take (s.call false wake [data]).winlen) 0 true))
  | writev {iov : List (List UInt8)} (ready : writeBlocked s.conn = false)
    (opened : s.conn.txClosed = false) :
    Moves s (.writev iov) (s.entered (.next (s.call true true iov)))
  | next {k : Call} (writer : s.writer = .next k) : Moves s .next { s with writer := k.nextIov }
  | round {k : Call} {rest : List UInt8} {pos : ℕ} {push alloc : Bool}
    (writer : s.writer = .sending k rest pos push) :
    Moves s (.round alloc) (s.round k rest pos push alloc)
  | finish {k : Call} {c : Conn} (writer : s.writer = .finishing k) (finished : Finished s.conn c) :
    Moves s .finish
      { s with conn := c, writer := .idle, written := s.written++k.data.take k.done }
  | finishResend {i : ℕ} {c : Conn} (writer : s.writer = .resending i)
    (finished : Finished s.conn c) : Moves s .finish { s with conn := c, writer := .idle }
  | retransmit (free : s.conn.txExclusive = false) : Moves s .retransmit
      { s with conn := { s.conn with txExclusive := true }, writer := .resending 0 }
  | resend {i : ℕ} {inPlace : Bool} {m m' : Mbuf} (writer : s.writer = .resending i)
    (buffer : s.conn.txq[i]? = some m)
    (resent : tcpTxRetransmitOne s.conn.sndUna inPlace m = .ok m') : Moves s (.resend inPlace)
      { s with conn := { s.conn with txq := s.conn.txq.set i m' }, writer := .resending (i+1) }
  | wait {k : Closer} {tx : TxResult} {err : ℤ} :
    Moves s (.shutdown k tx err) { s with closers := s.closers++[k] }
  | shut {ev : Event} {c : Conn} {fins : List (BitVec 32)} {closers : List Closer}
    (free : s.conn.txExclusive = false) (shut : Shut s.conn s.fins c fins) :
    Moves s ev { s with conn := c, fins := fins, closers := closers }
  | timeWaitOver : Moves s .timeWaitOver { s with conn := { s.conn with state := .closed } }
  | abort {err : ℤ} {c : Conn} (state : c.state = .closed)
    (txExclusive : c.txExclusive = s.conn.txExclusive) :
    Moves s (.abort err) { s with conn := c }

section Inversion

variable {s t : Sys} {ev : Event}

theorem step_attempt (h : s.step ev = some t) : s.attempt ev = .ok (some t) :=
  toOption_bind_eq_some.mp h

theorem begin_moves {vec wake : Bool} {iov : List (List UInt8)} :
    s.begin vec wake iov = if s.conn.txClosed then s else s.entered
      (if vec then .next (s.call vec wake iov)
        else .sending { s.call vec wake iov with todo := [] }
          (iov.flatten.take (s.call vec wake iov).winlen) 0 true) := by
  unfold Sys.begin writeStart
  by_cases hc : s.conn.txClosed = true
  · rw [if_pos hc,if_pos hc]
  · rw [if_neg hc,if_neg hc]
    rfl

theorem recv_received {n n' : Tcp.Sys} {env : Env} {p : Packet}
    (h : n.step (.recv env p) = .ok (some n')) : Received env p n.conn n'.conn := by
  rw [Tcp.Sys.step] at h
  cases hrx : tcpRxConn env n.conn p with
  | error a =>
    rw [hrx] at h
    contradiction
  | ok r =>
    rw [hrx] at h
    cases h
    exact (tcpRxConn_spec hrx).1

theorem step_recv {i : ℕ} {tx : TxResult} {p : Packet} (h : s.step (.recv i tx p) = some t) :
    ∃ nxt net,s.loads[i]? = some nxt ∧ Received ⟨nxt,tx⟩ p s.conn net.conn ∧
      t = { s with toSys := net, loads := s.loads.eraseIdx i } := by
  have h := step_attempt h
  simp only [Sys.attempt] at h
  split at h
  · cases h
  rename_i nxt hload
  obtain ⟨net,hnet,h⟩ := bind_eq_ok h
  cases net with
  | none => cases h
  | some net =>
    cases h
    exact ⟨nxt,net,hload,recv_received hnet,rfl⟩

theorem step_moves (h : s.step ev = some t) : Moves s ev t := by
  have hstep := h
  have h := step_attempt h
  have hsame : ∀ ev, Moves s ev s := fun ev =>
    .quiet s.toSys (SendKeeps.refl _) rfl rfl
  have hwrite : ∀ ev wake data, writeBlocked s.conn = false →
      Moves s ev (s.begin false wake [data]) := fun ev wake data hready => by
    rw [begin_moves]
    split
    · exact hsame ev
    · rename_i hclosed
      have hflat : [data].flatten = data := List.flatten_singleton
      rw [hflat]
      exact .write hready (Bool.eq_false_iff.mpr hclosed)
  cases ev with simp only [Sys.attempt] at h
  | load =>
    cases h
    exact .load
  | recv i tx p =>
    obtain ⟨nxt,net,hload,hreceived,rfl⟩ := step_recv hstep
    exact .recv hload hreceived
  | write data =>
    split at h
    · cases h
    · rename_i hblocked
      cases h
      exact hwrite _ _ _ (Bool.eq_false_iff.mpr hblocked)
  | tryWrite data =>
    cases h
    split
    · exact hsame _
    · rename_i hblocked
      exact hwrite _ _ _ (Bool.eq_false_iff.mpr hblocked)
  | writev iov =>
    split at h
    · cases h
    · rename_i hblocked
      cases h
      rw [begin_moves]
      split
      · exact hsame _
      · rename_i hclosed
        exact .writev (Bool.eq_false_iff.mpr hblocked) (Bool.eq_false_iff.mpr hclosed)
  | next =>
    split at h
    · cases h
      exact .next ‹_›
    · cases h
  | round alloc =>
    split at h
    · cases h
      exact .round ‹_›
    · cases h
  | finish =>
    split at h
    · obtain ⟨⟨c,d⟩,hfin,h⟩ := bind_eq_ok (some_eq_ok h)
      cases h
      exact .finish ‹_› (tcpWriteFinish_finished hfin)
    · obtain ⟨⟨c,d⟩,hfin,h⟩ := bind_eq_ok (some_eq_ok h)
      cases h
      rw [List.append_nil]
      exact .finishResend ‹_› (tcpWriteFinish_finished hfin)
    · cases h
  | retransmit =>
    rw [retransmitStart] at h
    split at h
    · cases h
    · rename_i hfree
      rw [Bool.or_eq_true,not_or,Bool.not_eq_true] at hfree
      cases h
      exact .retransmit hfree.1
  | resend inPlace =>
    split at h
    · split at h
      · obtain ⟨m',hone,h⟩ := bind_eq_ok (some_eq_ok h)
        cases h
        exact .resend ‹_› ‹_› hone
      · cases h
    · cases h
  | shutdown k tx err =>
    split at h
    · cases h
      obtain ⟨hk,hw,hs⟩ := tcpConnShutdownRx_sends s.conn
      split
      · exact .quiet { s.toSys with conn := (tcpConnShutdownRx s.conn).1 } hk hw hs
      · exact hsame _
    · obtain ⟨_,-,h⟩ := bind_eq_ok h
      split at h
      · cases h
        exact .wait
      · rename_i hfree
        obtain ⟨c,fins,rfl,hshut⟩ := shut_cases (some_eq_ok h)
        exact .shut (Bool.eq_false_iff.mpr hfree) hshut
  | shutdownGo i tx err =>
    split at h
    · cases h
    split at h
    · cases h
    · rename_i hfree
      obtain ⟨c,fins,rfl,hshut⟩ := shut_cases (some_eq_ok h)
      exact .shut (Bool.eq_false_iff.mpr hfree) hshut
  | timeWaitOver =>
    split at h
    · obtain ⟨_,-,h⟩ := setState_bind h
      cases h
      exact .timeWaitOver
    · cases h
  | abort err =>
    obtain ⟨⟨c,d⟩,hfail,h⟩ := bind_eq_ok h
    obtain ⟨hs,-,hex,-⟩ := tcpConnFail_closes hfail
    cases h
    exact .abort hs hex
  | receive ev =>
    split at h
    · rename_i hev
      obtain ⟨net,hnet,h⟩ := bind_eq_ok h
      cases net with
      | none => cases h
      | some net =>
        obtain ⟨hk,hw,hs⟩ := reads_keep hev hnet
        cases h
        exact .quiet net hk hw hs
    · cases h

theorem txFill_keeps {c c' : Conn} {m : Mbuf} {rest rest' : List UInt8} {alloc : Bool}
    (h : txFill c rest alloc = some (c',m,rest')) :
    c'.txExclusive = c.txExclusive ∧ c'.state = c.state := by
  obtain ⟨n,-,hfilled⟩ := txFill_filled h
  rw [hfilled.conn]
  exact ⟨rfl,rfl⟩

theorem txEmit_keeps (c : Conn) (m : Mbuf) (rest : List UInt8) (push : Bool) :
    (txEmit c m rest push).txExclusive = c.txExclusive ∧ (txEmit c m rest push).state = c.state := by
  rw [txEmit]
  split <;> exact ⟨rfl,rfl⟩

theorem round_keeps (s : Sys) (k : Call) (rest : List UInt8) (pos : ℕ) (push alloc : Bool) :
    (s.round k rest pos push alloc).conn.txExclusive = s.conn.txExclusive ∧
      (s.round k rest pos push alloc).conn.state = s.conn.state := by
  rw [Sys.round]
  split
  · exact ⟨rfl,rfl⟩
  · rename_i c m rest' h
    obtain ⟨hex,hstate⟩ := txFill_keeps h
    obtain ⟨hex',hstate'⟩ := txEmit_keeps c m rest' push
    exact ⟨hex'.trans hex,hstate'.trans hstate⟩

theorem round_fins (s : Sys) (k : Call) (rest : List UInt8) (pos : ℕ) (push alloc : Bool) :
    (s.round k rest pos push alloc).fins = s.fins := by
  rw [Sys.round]
  split <;> rfl

/-- Whoever writes or retransmits has `tx_exclusive`. -/
def Exclusive (s : Sys) : Prop := s.conn.txExclusive = false → s.writer = .idle

theorem Exclusive.held (h : Exclusive s) (hwriter : s.writer ≠ .idle) :
    s.conn.txExclusive = true := by
  cases hex : s.conn.txExclusive with
  | true => rfl
  | false => exact absurd (h hex) hwriter

theorem Exclusive.keep (h : Exclusive s) (hex : t.conn.txExclusive = s.conn.txExclusive)
    (hwriter : t.writer = s.writer) : Exclusive t :=
  fun ht => hwriter.trans (h (hex.symm.trans ht))

theorem Exclusive.busy (h : Exclusive s) (hex : t.conn.txExclusive = s.conn.txExclusive)
    (hwriter : s.writer ≠ .idle) : Exclusive t :=
  fun ht => absurd (h (hex.symm.trans ht)) hwriter

/-- A writer is let in while nobody else has `tx_exclusive` and the window has room. -/
theorem free_of_ready {c : Conn} (h : writeBlocked c = false) (hopen : c.txClosed = false) :
    c.txExclusive = false ∧ tcpIsSndFull c = false := by
  simp only [writeBlocked,hopen,Bool.not_false,Bool.true_and,Bool.or_eq_false_iff] at h
  exact ⟨h.1.2,h.2⟩

theorem step_exclusive (h : Exclusive s) (ht : s.step ev = some t) : Exclusive t := by
  cases step_moves ht with
  | load | wait | timeWaitOver => exact h.keep rfl rfl
  | recv loaded received =>
    cases received with
    | goes goes => exact h.keep goes.1.txExclusive rfl
    | failed flag state exclusive => exact h.keep exclusive rfl
    | syn waits state exclusive => exact h.keep exclusive rfl
  | quiet net keeps sndWnd state => exact h.keep keeps.txExclusive rfl
  | write ready opened | writev ready opened | retransmit free => exact nofun
  | next writer => exact h.busy rfl (by simp [writer])
  | round writer => exact h.busy (round_keeps ..).1 (by simp [writer])
  | finish writer finished | finishResend writer finished => exact fun _ => rfl
  | resend writer buffer resent => exact h.busy rfl (by simp [writer])
  | shut free shut => exact h.keep shut.exclusive rfl
  | abort state txExclusive => exact h.keep txExclusive rfl

end Inversion

/-- An acknowledgment without data, for a connection as `Conn.opened` has it. -/
def ackPacket (ack : BitVec 32) : Packet :=
  ⟨1,ack,1000,⟨5,five_lt_sixteen⟩,tcpAck,[],fun _ => 0,no_text_le⟩

end Vessel.TcpSend
