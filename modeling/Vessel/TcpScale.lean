import Vessel.TcpOut
import Vessel.TcpOwes
import Vessel.TcpWindow

/-! Window scaling (`tcp.c`, `tcp_in.c`, `tcp_out.c`): the options of a SYN as they are written and
read, what both ends of a connection take from them, and the window in later headers. -/
namespace Vessel.Tcp

open Serial

/-! ### Opening a connection -/

/-- The loop of `tcp_scale_window`, with `left` shifts to go. -/
def scaleLoop : (left maxwin : ℕ) → ℕ
  | 0,_ => 0
  | left+1,maxwin => if 65535 < maxwin then scaleLoop left (maxwin/2)+1 else 0

def tcpScaleWindow (maxwin : BitVec 32) : ℕ := scaleLoop 14 maxwin.toNat

/-- In the source `winmax` is `TCP_WIN` and `rcvMss` comes from the MTU. -/
def tcpConnAlloc (winmax : BitVec 32) (rcvMss : ℕ) (iss : BitVec 32) : Conn where
  state := .closed
  sndUna := iss
  sndNxt := iss
  sndWnd := 0
  sndWl1 := 0
  sndWl2 := 0
  iss := iss
  sndWscale := 0
  sndMss := 0
  irs := 0
  rcvWscale := tcpScaleWindow winmax
  rcvMss := rcvMss
  err := 0
  winmax := winmax
  rxClosed := false
  rxExclusive := false
  rx := ⟨0,winmax,[],[],0⟩
  txClosed := false
  txExclusive := false
  txLastAck := 0
  txLastWin := 0
  txPending := none
  txq := []
  doFastRetransmit := false
  fastRetransmitLastAck := 0
  ackDelayed := false
  repAcks := 0
  acksDelayedCnt := 0

/-- The end of `tcp_dial`, before it waits, and of `tcp_rx_listener`: a connection whose SYN or
SYN/ACK cannot be sent is destroyed. -/
def sendSyn (c : Conn) (flags : Flags) (opts : Options) (tx : TxResult) (st : State) :
    Except Abort (Option Conn × List Deferred) :=
  let (ok,c,d) := tcpTxCtl c flags opts tx
  if !ok then pure (none,d)
  else do
    let (c,d') ← tcpConnSetState c st
    pure (some c,d++d')

/-- `attached` says whether the connection could be attached. -/
def tcpDial (c : Conn) (attached : Bool) (tx : TxResult) :
    Except Abort (Option Conn × List Deferred) :=
  if !attached then pure (none,[])
  else sendSyn c tcpSyn ⟨true,true,c.rcvMss,c.rcvWscale⟩ tx .synSent

/-- `alloc` is what `tcp_conn_alloc` returns. -/
def tcpRxListener (alloc : Option Conn) (attached : Bool) (tx : TxResult) (p : Packet) :
    Except Abort (Option Conn × List Deferred) :=
  if has p.flags tcpRst then pure (none,[])
  else if has p.flags tcpAck then pure (none,[.rst p.ack])
  else if !has p.flags tcpSyn then pure (none,[])
  else if 20+p.rest.length ≠ 4*p.off.val then pure (none,[])
  else
    match alloc with
    | none => pure (none,[])
    | some c => do
      let c := { c with irs := p.seq, rx := { c.rx with rcvNxt := p.seq+1 } }
      let (c,opts) ← tcpParseOptions c (optArea p.rest p.beyond) (4*p.off.val-20)
      if !attached then pure (none,[])
      else sendSyn c (tcpSyn ||| tcpAck) opts tx .synReceived

/-! ### On the wire -/

/-- The words are pushed in front of each other, so the segment size comes first. -/
def tcpPushOptions (o : Options) : List UInt8 :=
  (if o.optMss then [tcpOptMss,tcpOlenMss,UInt8.ofNat (o.mss/256),UInt8.ofNat o.mss] else [])++
    if o.optWscale then [tcpOptNop,tcpOptWscale,tcpOlenWscale,UInt8.ofNat o.wscale] else []

/-- `win` as `tcp_push_tcphdr` writes it. -/
def Conn.headerWin (c : Conn) : BitVec 16 := (c.rx.rcvWnd >>> c.rcvWscale).setWidth 16

theorem tcpPushOptions_length (o : Options) :
    (tcpPushOptions o).length = 4*(o.optMss.toNat+o.optWscale.toNat) := by
  rw [tcpPushOptions]
  cases o.optMss <;> cases o.optWscale <;> rfl

theorem ctl_off_lt (o : Options) : 5+o.optMss.toNat+o.optWscale.toNat < 16 := by
  cases o.optMss <;> cases o.optWscale <;> decide

theorem ctl_rest_le (o : Options) : (tcpPushOptions o).length ≤ 65515 := by
  rw [tcpPushOptions_length]
  have := ctl_off_lt o
  omega

/-- What `tcp_tx_ctl` sends for `c`; the buffer ends with the options. -/
def ctlPacket (c : Conn) (flags : Flags) (o : Options) : Packet where
  seq := c.sndNxt
  ack := c.rx.rcvNxt
  win := c.headerWin
  off := ⟨5+o.optMss.toNat+o.optWscale.toNat,ctl_off_lt o⟩
  flags := flags
  rest := tcpPushOptions o
  beyond := fun _ => 0
  rest_le := ctl_rest_le o

/-- The options that a packet has room for. -/
def Packet.options (p : Packet) : List UInt8 := p.rest.take (4*p.off.val-20)

theorem tcpPushOptions_offers (o : Options) (h : o.wscale ≤ 14) :
    Offers (tcpPushOptions o) ⟨if o.optMss then some (o.mss%65536) else none,
      if o.optWscale then some o.wscale else none⟩ := by
  have hbyte : (UInt8.ofNat o.wscale).toNat = o.wscale := by
    rw [UInt8.toNat_ofNat']
    omega
  have hmss : (UInt8.ofNat (o.mss/256)).toNat*256+(UInt8.ofNat o.mss).toNat = o.mss%65536 := by
    rw [UInt8.toNat_ofNat',UInt8.toNat_ofNat']
    omega
  have hscale := Offers.nop (Offers.wscale (UInt8.ofNat o.wscale) (by omega) .nil)
  have hsize : ∀ {rest o'}, Offers rest o' → _ :=
    Offers.mss (UInt8.ofNat (o.mss/256)) (UInt8.ofNat o.mss)
  rw [hbyte] at hscale
  simp only [hmss] at hsize
  rw [tcpPushOptions]
  cases o.optMss with
  | false =>
    cases o.optWscale with
    | false => exact .nil
    | true => exact hscale
  | true =>
    cases o.optWscale with
    | false => exact hsize .nil
    | true => exact hsize hscale

/-! ### Reading the options -/

/-- A connection after `tcp_parse_options`. -/
def Conn.parsed (c : Conn) (o : Offer) : Conn :=
  let winmax := if o.wscale.isSome then c.winmax else if c.winmax < 65535 then c.winmax else 65535
  { c with
    sndMss := o.mss.elim (tcpCalculateMss ethDefaultMtu) fun mss => min (max mss tcpMinMss) c.rcvMss
    sndWscale := o.wscale.getD 0
    rcvWscale := if o.wscale.isSome then c.rcvWscale else 0
    winmax := winmax
    rx := { c.rx with rcvWnd := if o.wscale.isSome then c.rx.rcvWnd else winmax } }

/-- The options of a segment with a header of at least 20 bytes, all of them received. -/
theorem tcpParseOptions_offers (c : Conn) {p : Packet} {o : Offer} (h : Offers p.options o)
    (hlen : 4*p.off.val-20 ≤ p.rest.length) :
    tcpParseOptions c (optArea p.rest p.beyond) (4*p.off.val-20) =
      .ok (c.parsed o,⟨o.mss.isSome,o.wscale.isSome,c.rcvMss,(c.parsed o).rcvWscale⟩) := by
  obtain ⟨s,hs,hmss,hwscale⟩ := scanOptions_offers (optArea p.rest p.beyond) h
  rw [Packet.options,optArea_take,List.length_take,Nat.min_eq_left hlen] at hs
  rw [tcpParseOptions,hs]
  dsimp only
  rw [hmss,hwscale,Conn.parsed]
  obtain ⟨mss,wscale⟩ := o
  cases mss <;> cases wscale <;> rfl

/-! ### Scaling -/

section Scaling

variable {c c' : Conn} {d : List Deferred}

theorem tcpConnSetState_scaling {st : State} (h : tcpConnSetState c st = .ok (c',d)) :
    c'.scaling = c.scaling := by
  obtain ⟨_,-,h⟩ := bind_eq_ok h
  cases h
  rfl

theorem tcpConnAck_scaling (c : Conn) : (tcpConnAck c).1.scaling = c.scaling := by
  unfold tcpConnAck
  split <;> rfl

theorem tcpConnShutdownRx_scaling (c : Conn) : (tcpConnShutdownRx c).1.scaling = c.scaling := by
  unfold tcpConnShutdownRx
  split <;> rfl

theorem tcpConnFail_scaling {err : ℤ} (h : tcpConnFail c err = .ok (c',d)) :
    c'.scaling = c.scaling := by
  obtain ⟨⟨c₁,d₁⟩,hset,h⟩ := bind_eq_ok h
  have hstate := tcpConnSetState_scaling hset
  cases h
  exact (tcpConnShutdownRx_scaling c₁).trans hstate

theorem tcpTxCtl_scaling (c : Conn) (flags : Flags) (opts : Options) (res : TxResult) :
    (tcpTxCtl c flags opts res).2.1.scaling = c.scaling := by
  cases res <;> rfl

theorem Slow.done_scaling (v : Slow) (m : Mbuf) : (v.done m).1.scaling = v.conn.scaling := by
  rw [Slow.done]
  cases v.doAck <;> rfl

end Scaling

/-! ### The exchange of SYNs -/

/-- A connection made with these limits to which no text has come, with its window scaled or
not. -/
structure Setup (winmax : BitVec 32) (rcvMss : ℕ) (scaled : Bool) (c : Conn) : Prop where
  rcvWscale : c.rcvWscale = if scaled then tcpScaleWindow winmax else 0
  rcvMss : c.rcvMss = rcvMss
  winmax : c.winmax = if scaled then winmax else if winmax < 65535 then winmax else 65535
  rcvWnd : c.rx.rcvWnd = c.winmax
  rxq : c.rx.rxq = []
  rxqOoo : c.rx.rxqOoo = []
  rxExclusive : c.rxExclusive = false

/-- Such a connection after the options of its peer. -/
structure Agreed (winmax : BitVec 32) (rcvMss : ℕ) (peer : Offer) (c : Conn) : Prop where
  peer_le : ∀ w ∈ peer.wscale, w ≤ 14
  setup : Setup winmax rcvMss peer.wscale.isSome c
  sndWscale : c.sndWscale = peer.wscale.getD 0
  sndMss : c.sndMss = peer.mss.elim (tcpCalculateMss ethDefaultMtu)
    fun mss => min (max mss tcpMinMss) rcvMss

section Exchange

variable {winmax : BitVec 32} {rcvMss : ℕ} {scaled : Bool} {peer : Offer} {c c' : Conn} {env : Env}
  {p : Packet} {win : BitVec 32} {d : List Deferred} {v : Slow}

theorem Setup.keeps (h : Setup winmax rcvMss scaled c) (hk : Keeps c c')
    (hs : c'.scaling = c.scaling) : Setup winmax rcvMss scaled c' where
  rcvWscale := (congrArg (·.2.2) hs).trans h.rcvWscale
  rcvMss := hk.rcvMss.trans h.rcvMss
  winmax := hk.winmax.trans h.winmax
  rcvWnd := by rw [hk.rx,hk.winmax,h.rcvWnd]
  rxq := by rw [hk.rx,h.rxq]
  rxqOoo := by rw [hk.rx,h.rxqOoo]
  rxExclusive := hk.rxExclusive.trans h.rxExclusive

theorem Agreed.keeps (h : Agreed winmax rcvMss peer c) (hk : Keeps c c')
    (hs : c'.scaling = c.scaling) : Agreed winmax rcvMss peer c' where
  peer_le := h.peer_le
  setup := h.setup.keeps hk hs
  sndWscale := (congrArg (·.1) hs).trans h.sndWscale
  sndMss := (congrArg (·.2.1) hs).trans h.sndMss

theorem setup_alloc (winmax : BitVec 32) (rcvMss : ℕ) (iss : BitVec 32) :
    Setup winmax rcvMss true (tcpConnAlloc winmax rcvMss iss) :=
  ⟨rfl,rfl,rfl,rfl,rfl,rfl,rfl⟩

theorem Setup.syn (h : Setup winmax rcvMss scaled c) (seq : BitVec 32) :
    Setup winmax rcvMss scaled { c with irs := seq, rx := { c.rx with rcvNxt := seq+1 } } :=
  ⟨h.rcvWscale,h.rcvMss,h.winmax,h.rcvWnd,h.rxq,h.rxqOoo,h.rxExclusive⟩

/-- A peer that offers no scale turns scaling off, at once or again. -/
theorem Setup.parsed (h : Setup winmax rcvMss scaled c) (hoff : scaled = false → peer.wscale = none)
    (hoffers : Offers p.options peer) : Agreed winmax rcvMss peer (c.parsed peer) := by
  have hmss : (c.parsed peer).sndMss = peer.mss.elim (tcpCalculateMss ethDefaultMtu)
      fun mss => min (max mss tcpMinMss) rcvMss := by
    rw [← h.rcvMss]
    rfl
  refine ⟨hoffers.wscale_le,?_,rfl,hmss⟩
  obtain ⟨mss,wscale⟩ := peer
  cases wscale with
  | some w =>
    cases scaled with
    | false => cases hoff rfl
    | true => exact ⟨h.rcvWscale,h.rcvMss,h.winmax,h.rcvWnd,h.rxq,h.rxqOoo,h.rxExclusive⟩
  | none =>
    refine ⟨rfl,h.rcvMss,?_,rfl,h.rxq,h.rxqOoo,h.rxExclusive⟩
    change (if c.winmax < 65535 then c.winmax else 65535) = if winmax < 65535 then winmax else 65535
    rw [h.winmax]
    cases scaled with
    | true => rfl
    | false =>
      simp only [Bool.false_eq_true,if_false]
      split
      · rfl
      · rfl

theorem rxSyn_agreed (h : Setup winmax rcvMss scaled c)
    (hoff : scaled = false → peer.wscale = none) (hoffers : Offers p.options peer)
    (hlen : 4*p.off.val-20 ≤ p.rest.length)
    (hv : rxSyn env c p.mbuf p.ack win (optArea p.rest p.beyond) (4*p.off.val-20) = .ok v) :
    Agreed winmax rcvMss peer v.conn := by
  have hparsed := (h.syn p.mbuf.segSeq).parsed hoff hoffers
  rw [rxSyn,tcpParseOptions_offers _ hoffers hlen,ok_bind] at hv
  dsimp only at hparsed hv
  generalize Conn.parsed _ peer = c₁ at hparsed hv
  generalize hu : (if has p.mbuf.flags tcpAck = true then tcpConnAck { c₁ with sndUna := p.ack }
    else (c₁,[])) = u at hv
  have hack : Agreed winmax rcvMss peer u.1 := by
    rw [← hu]
    split
    · have hk := (tcpConnAck_keeps { c₁ with sndUna := p.ack }).1
      exact hparsed.keeps ⟨hk.rx,hk.rxClosed,hk.rxExclusive,hk.winmax,hk.irs,hk.rcvMss,hk.err⟩
        (tcpConnAck_scaling _)
    · exact hparsed
  split at hv
  · obtain ⟨_,-,hv⟩ := setState_bind hv
    cases hv
    exact hack.keeps ⟨rfl,rfl,rfl,rfl,rfl,rfl,rfl⟩ rfl
  · have hctl : ∀ opts, Agreed winmax rcvMss peer
        (tcpTxCtl u.1 (tcpSyn ||| tcpAck) opts env.tx).2.1 := fun opts =>
      hack.keeps (tcpTxCtl_keeps ..).1 (tcpTxCtl_scaling ..)
    split at hv
    · cases hv
      exact hctl _
    · obtain ⟨_,-,hv⟩ := setState_bind hv
      cases hv
      exact (hctl _).keeps ⟨rfl,rfl,rfl,rfl,rfl,rfl,rfl⟩ rfl

/-- A packet for a connection that waits for a SYN: it fails, goes on waiting, or takes what
the peer offers. -/
theorem synSent_cases (hsyn : c.state = .synSent) (h : Setup winmax rcvMss scaled c)
    (hoff : scaled = false → peer.wscale = none)
    (hoffers : has p.flags tcpSyn = true → Offers p.options peer)
    (hrx : tcpRxConn env c p = .ok (c',d)) :
    c'.state = .closed ∨ c'.state = .synSent ∧ Setup winmax rcvMss scaled c' ∨
      Agreed winmax rcvMss peer c' := by
  by_cases hpass : p.Passes c
  · have hslow : slowPath env c p.mbuf p.ack p.textLen = true := by
      by_contra hfast
      have := (guarded hpass (Bool.eq_false_of_not_eq_true hfast)).state
      rw [hsyn] at this
      cases this
    rw [tcpRxConn_passes hpass,if_pos hslow] at hrx
    obtain ⟨v,hv,hdone⟩ := map_eq_ok hrx
    obtain ⟨hk,hst⟩ := v.done_keeps p.mbuf
    have hscale := v.done_scaling p.mbuf
    rw [hdone] at hk hst hscale
    have hquiet : v.conn = c → c'.state = .closed ∨
        c'.state = .synSent ∧ Setup winmax rcvMss scaled c' ∨ Agreed winmax rcvMss peer c' :=
      fun hc => by
        rw [hc] at hk hst hscale
        exact .inr (.inl ⟨hst.trans hsyn,h.keeps hk hscale⟩)
    rw [rxSlow,if_neg (by rw [hsyn]; decide),if_pos hsyn,rxSynSent] at hv
    split at hv
    · cases hv
      exact hquiet rfl
    split at hv
    · obtain ⟨⟨c₁,d₁⟩,hfail,hv⟩ := bind_eq_ok hv
      cases hv
      exact .inl (hst.trans (tcpConnFail_closes hfail).1)
    split at hv
    · cases hv
      exact hquiet rfl
    split at hv
    · rename_i hflag
      have hnew := rxSyn_agreed h hoff (hoffers hflag) hpass.textLen_eq.2 hv
      exact .inr (.inr (hnew.keeps hk hscale))
    · cases hv
      exact hquiet rfl
  · obtain ⟨_,hd⟩ := tcpRxConn_drops env hpass
    rw [hd] at hrx
    cases hrx
    exact .inr (.inl ⟨hsyn,h⟩)

/-- A packet for a connection that waits for a SYN; a SYN offers what the peer offers. -/
def SynStep (peer : Offer) (c c' : Conn) : Prop :=
  c.state = .synSent ∧ ∃ env p d, (has p.flags tcpSyn = true → Offers p.options peer) ∧
    tcpRxConn env c p = .ok (c',d)

theorem synSteps_agreed (h : Setup winmax rcvMss true c) (hsyn : c.state = .synSent)
    (hsteps : Relation.ReflTransGen (SynStep peer) c c') :
    c'.state = .closed ∨
      c'.state = .synSent ∧ (∃ scaled, (scaled = false → peer.wscale = none) ∧
        Setup winmax rcvMss scaled c') ∨
      Agreed winmax rcvMss peer c' := by
  induction hsteps with
  | refl => exact .inr (.inl ⟨hsyn,true,by simp,h⟩)
  | @tail c₁ c₂ _ hstep ih =>
    obtain ⟨hwait,env,p,d,hoffers,hrx⟩ := hstep
    have hsetup : ∃ scaled, (scaled = false → peer.wscale = none) ∧
        Setup winmax rcvMss scaled c₁ := by
      rcases ih with hclosed | ⟨-,hsetup⟩ | hneg
      · rw [hwait] at hclosed
        cases hclosed
      · exact hsetup
      · exact ⟨_,by simp,hneg.setup⟩
    obtain ⟨scaled,hoff,hsetup⟩ := hsetup
    rcases synSent_cases hwait hsetup hoff hoffers hrx with hclosed | ⟨hst,hs⟩ | hneg
    · exact .inl hclosed
    · exact .inr (.inl ⟨hst,scaled,hoff,hs⟩)
    · exact .inr (.inr hneg)

end Exchange

/-- An end of a connection after the exchange of SYNs: it has dialed, or it has answered a SYN.
`peer` is what the SYN of the peer offers, `ours` what our own SYN or SYN/ACK does. -/
inductive Exchanged (winmax : BitVec 32) (rcvMss : ℕ) (peer ours : Offer) : Conn → Prop
  | dialed {iss : BitVec 32} {attached : Bool} {tx : TxResult} {c₁ c : Conn} {d : List Deferred}
    {opts : Options}
    (dial : tcpDial (tcpConnAlloc winmax rcvMss iss) attached tx = .ok (some c₁,d))
    (sent : .ctl tcpSyn opts ∈ d) (offers : Offers (tcpPushOptions opts) ours)
    (steps : Relation.ReflTransGen (SynStep peer) c₁ c)
    (past : c.state ≠ .synSent) (alive : c.state ≠ .closed) : Exchanged winmax rcvMss peer ours c
  | accepted {iss : BitVec 32} {attached : Bool} {tx : TxResult} {p : Packet} {c : Conn}
    {d : List Deferred} {opts : Options} (offer : Offers p.options peer)
    (answer : tcpRxListener (some (tcpConnAlloc winmax rcvMss iss)) attached tx p = .ok (some c,d))
    (sent : .ctl (tcpSyn ||| tcpAck) opts ∈ d) (offers : Offers (tcpPushOptions opts) ours) :
    Exchanged winmax rcvMss peer ours c

/-- The shifts of an end for the windows that it reads and those that it writes, by what it
offered and what it was offered. -/
def agreedScales (ours peer : Option ℕ) : ℕ × ℕ :=
  match ours,peer with
  | some w,some w' => (w',w)
  | _,_ => (0,0)

section Ends

variable {winmax : BitVec 32} {rcvMss : ℕ} {peer ours : Offer} {c : Conn}

theorem scaleLoop_le (left maxwin : ℕ) : scaleLoop left maxwin ≤ left := by
  induction left generalizing maxwin with
  | zero => exact Nat.le_refl 0
  | succ left ih =>
    rw [scaleLoop]
    split
    · exact Nat.succ_le_succ (ih _)
    · exact Nat.zero_le _

theorem lt_scaleLoop_iff (left maxwin : ℕ) :
    maxwin < 2^(16+scaleLoop left maxwin) ↔ maxwin < 2^(16+left) := by
  induction left generalizing maxwin with
  | zero => exact Iff.rfl
  | succ left ih =>
    have hdouble : ∀ k : ℕ, maxwin < 2^(16+(k+1)) ↔ maxwin/2 < 2^(16+k) := by
      intro k
      rw [← Nat.add_assoc,Nat.pow_succ]
      exact (Nat.div_lt_iff_lt_mul (by decide)).symm
    rw [scaleLoop]
    split
    · rw [hdouble,hdouble]
      exact ih (maxwin/2)
    · have hpow : 2^16 ≤ 2^(16+(left+1)) := Nat.pow_le_pow_right (by decide) (by omega)
      constructor
      · intro
        omega
      · intro
        rw [Nat.add_zero]
        omega

theorem tcpConnSetState_eq {st : State} {c' : Conn} {d : List Deferred}
    (h : tcpConnSetState c st = .ok (c',d)) :
    c' = { c with state := st } ∧ ∀ flags opts, .ctl flags opts ∉ d := by
  obtain ⟨_,-,h⟩ := bind_eq_ok h
  cases h
  refine ⟨rfl,fun flags opts hmem => ?_⟩
  split at hmem
  · simp at hmem
  · simp at hmem

theorem sendSyn_sent {st : State} {tx : TxResult} {c' : Conn} {d : List Deferred} {flags : Flags}
    {opts : Options} (h : sendSyn c flags opts tx st = .ok (some c',d)) :
    Keeps c c' ∧ c'.scaling = c.scaling ∧ c'.state = st ∧
      ∀ flags' opts', .ctl flags' opts' ∈ d → opts' = opts := by
  have hk := (tcpTxCtl_keeps c flags opts tx).1
  have hs := tcpTxCtl_scaling c flags opts tx
  rw [sendSyn] at h
  dsimp only at h
  split at h
  · cases h
  · rename_i hok
    obtain ⟨⟨c₁,d₁⟩,hset,h⟩ := bind_eq_ok h
    obtain ⟨rfl,hctl⟩ := tcpConnSetState_eq hset
    cases h
    refine ⟨hk.trans (Keeps.setState _ _),hs,rfl,fun flags' opts' hmem => ?_⟩
    rcases List.mem_append.mp hmem with hmem | hmem
    · cases tx with
      | nomem => simp [tcpTxCtl] at hok
      | failed => simp [tcpTxCtl] at hok
      | sent =>
        simp only [tcpTxCtl,List.mem_singleton] at hmem
        cases hmem
        rfl
    · exact absurd hmem (hctl _ _)

theorem tcpDial_sent {attached : Bool} {tx : TxResult} {c' : Conn} {d : List Deferred}
    (h : tcpDial c attached tx = .ok (some c',d)) :
    Keeps c c' ∧ c'.scaling = c.scaling ∧ c'.state = .synSent ∧
      ∀ flags opts, .ctl flags opts ∈ d → opts = ⟨true,true,c.rcvMss,c.rcvWscale⟩ := by
  rw [tcpDial] at h
  split at h
  · cases h
  · exact sendSyn_sent h

theorem tcpRxListener_sent {attached : Bool} {tx : TxResult} {p : Packet} {c' : Conn}
    {d : List Deferred} (hoffers : Offers p.options peer) (hs : Setup winmax rcvMss true c)
    (h : tcpRxListener (some c) attached tx p = .ok (some c',d)) :
    Agreed winmax rcvMss peer c' ∧ c'.state = .synReceived ∧ ∀ flags opts, .ctl flags opts ∈ d →
      opts = ⟨peer.mss.isSome,peer.wscale.isSome,rcvMss,c'.rcvWscale⟩ := by
  rw [tcpRxListener] at h
  split at h
  · cases h
  split at h
  · cases h
  split at h
  · cases h
  split at h
  · cases h
  rename_i hlen
  have hroom : 4*p.off.val-20 ≤ p.rest.length := by omega
  have hparsed := (hs.syn p.seq).parsed (by simp) hoffers
  dsimp only at h
  rw [tcpParseOptions_offers _ hoffers hroom,ok_bind] at h
  dsimp only at h hparsed
  split at h
  · cases h
  generalize Conn.parsed _ peer = c₁ at h hparsed
  obtain ⟨hk,hscale,hst,hctl⟩ := sendSyn_sent h
  refine ⟨hparsed.keeps hk hscale,hst,fun flags opts hmem => ?_⟩
  have hwscale : c'.rcvWscale = c₁.rcvWscale := congrArg (·.2.2) hscale
  rw [hctl flags opts hmem,hwscale,hs.rcvMss]

/-- Our options say what the scale of our windows is, if they will be scaled. -/
theorem Exchanged.agreed (h : Exchanged winmax rcvMss peer ours c) :
    Agreed winmax rcvMss peer c ∧ c.state ≠ .synSent ∧
      (peer.wscale.isSome = true → ours.wscale = some (tcpScaleWindow winmax)) := by
  have hle : tcpScaleWindow winmax ≤ 14 := scaleLoop_le 14 _
  cases h with
  | dialed dial sent offers steps past alive =>
    obtain ⟨hk,hscale,hst,hctl⟩ := tcpDial_sent dial
    have hsetup := (setup_alloc winmax rcvMss _).keeps hk hscale
    refine ⟨?_,past,fun _ => ?_⟩
    · rcases synSteps_agreed hsetup hst steps with hclosed | ⟨hwait,-⟩ | hagreed
      · exact absurd hclosed alive
      · exact absurd hwait past
      · exact hagreed
    · obtain rfl := hctl _ _ sent
      have hours := offers.unique (tcpPushOptions_offers _ hle)
      rw [hours]
      rfl
  | accepted offer answer sent offers =>
    obtain ⟨hagreed,hst,hctl⟩ := tcpRxListener_sent offer (setup_alloc winmax rcvMss _) answer
    refine ⟨hagreed,by rw [hst]; decide,fun hsome => ?_⟩
    obtain rfl := hctl _ _ sent
    have hscale : c.rcvWscale = tcpScaleWindow winmax := by
      rw [hagreed.setup.rcvWscale,if_pos hsome]
    have hours := offers.unique (tcpPushOptions_offers _ (by rw [hscale]; exact hle))
    rw [hours]
    dsimp only
    rw [if_pos hsome,hscale]

theorem Exchanged.scales (h : Exchanged winmax rcvMss peer ours c) :
    (c.sndWscale,c.rcvWscale) = agreedScales ours.wscale peer.wscale := by
  obtain ⟨hagreed,-,hours⟩ := h.agreed
  rw [hagreed.sndWscale,hagreed.setup.rcvWscale]
  cases hp : peer.wscale with
  | none => cases ours.wscale <;> rfl
  | some w =>
    rw [hours (by rw [hp]; rfl)]
    rfl

theorem agreedScales_swap (ours peer : Option ℕ) :
    agreedScales peer ours = (agreedScales ours peer).swap := by
  cases ours <;> cases peer <;> rfl

end Ends

/-! ### Windows in headers -/

/-- The window that a header gives an end that shifts it by `wscale`. -/
def readWindow (wscale : ℕ) (win : BitVec 16) : BitVec 32 := win.setWidth 32 <<< wscale

/-- The window that was read is the one that was written, rounded down to what can be scaled. -/
def Told (wnd : BitVec 32) (wscale : ℕ) (got : BitVec 32) : Prop :=
  got.toNat ≤ wnd.toNat ∧ wnd.toNat < got.toNat+2^wscale

theorem readWindow_toNat {wscale : ℕ} (h : wscale ≤ 14) (wnd : BitVec 32) :
    (readWindow wscale ((wnd >>> wscale).setWidth 16)).toNat =
      wnd.toNat/2^wscale%2^16*2^wscale := by
  have hpow : (2 : ℕ)^wscale ≤ 2^14 := Nat.pow_le_pow_right (by decide) h
  have hmod : wnd.toNat/2^wscale%2^16 < 2^16 := Nat.mod_lt _ (by decide)
  have hsmall : wnd.toNat/2^wscale%2^16*2^wscale < 2^32 :=
    calc wnd.toNat/2^wscale%2^16*2^wscale
      _ < 2^16*2^14 := Nat.mul_lt_mul_of_lt_of_le hmod hpow (by decide)
      _ < 2^32 := by decide
  rw [readWindow,BitVec.toNat_shiftLeft,BitVec.toNat_setWidth,BitVec.toNat_setWidth,
    BitVec.toNat_ushiftRight,Nat.shiftRight_eq_div_pow,Nat.shiftLeft_eq,
    Nat.mod_eq_of_lt (a:=_%2^16) (by omega),Nat.mod_eq_of_lt hsmall]

theorem told_iff {wscale : ℕ} (h : wscale ≤ 14) (wnd : BitVec 32) :
    Told wnd wscale (readWindow wscale ((wnd >>> wscale).setWidth 16)) ↔
      wnd.toNat < 2^(16+wscale) := by
  have hpos : 0 < (2 : ℕ)^wscale := Nat.two_pow_pos wscale
  rw [Told,readWindow_toNat h,Nat.pow_add]
  generalize 2^wscale = k at hpos
  generalize wnd.toNat = n
  have hdiv : n/k*k ≤ n := Nat.div_mul_le_self n k
  have hlt : n < n/k*k+k := by
    rw [← Nat.succ_mul,Nat.mul_comm]
    exact Nat.lt_mul_div_succ n hpos
  constructor
  · rintro ⟨-,hwnd⟩
    calc n < n/k%2^16*k+k := hwnd
      _ = (n/k%2^16+1)*k := (Nat.succ_mul _ _).symm
      _ ≤ 2^16*k := Nat.mul_le_mul_right k (Nat.mod_lt _ (by decide))
  · intro hwnd
    have hmod : n/k%2^16 = n/k := Nat.mod_eq_of_lt (by rwa [Nat.div_lt_iff_lt_mul hpos])
    rw [hmod]
    exact ⟨hdiv,hlt⟩

/-! ### Later segments -/

/-- What the sections of the sending side leave of a connection. -/
inductive SendSection (c : Conn) : Conn → Prop
  | header : SendSection c { c with txLastAck := c.rx.rcvNxt, txLastWin := c.rx.rcvWnd }
  | start {c' : Conn} {winlen : ℕ} (h : writeStart c = some (c',winlen)) : SendSection c c'
  | round {c' : Conn} {m : Mbuf} {rest rest' : List UInt8} {alloc : Bool} (push : Bool)
    (h : txFill c rest alloc = some (c',m,rest')) : SendSection c (txEmit c' m rest' push)
  | finish {c' : Conn} {wake : Bool} {d : List Deferred} (h : tcpWriteFinish c wake = .ok (c',d)) :
    SendSection c c'
  | retransmit {c' : Conn} (h : retransmitStart c = some c') : SendSection c c'
  | resend (i : ℕ) (m : Mbuf) : SendSection c { c with
      txq := c.txq.set i m
      txLastAck := c.rx.rcvNxt
      txLastWin := c.rx.rcvWnd }
  | shutdown {c' : Conn} {tx : TxResult} {ok : Bool} {d : List Deferred}
    (h : shutdownTxSend c tx = .ok (c',ok,d)) : SendSection c c'
  | timeout : SendSection c { c with ackDelayed := false, acksDelayedCnt := 0 }
  | timeWait : SendSection c { c with state := .closed }

/-- The sending side does what the source does, and no `tcp_try_read` ends under another read. -/
def Calm (s : Sys) (ev : Event) : Prop :=
  EndsAlone s ev ∧ ∀ c', ev = .send c' → SendSection s.conn c'

section Later

variable {winmax : BitVec 32} {rcvMss : ℕ} {peer ours : Offer} {c c' : Conn} {s s' : Sys}
  {ev : Event}

theorem writeCatchUp_scaling (c : Conn) : (writeCatchUp c).1.scaling = c.scaling := by
  rw [writeCatchUp]
  split
  · rfl
  split <;> rfl

theorem tcpWriteFinish_scaling {wake : Bool} {d : List Deferred}
    (h : tcpWriteFinish c wake = .ok (c',d)) : c'.scaling = c.scaling := by
  obtain ⟨_,-,h⟩ := bind_eq_ok h
  have hack := tcpConnAck_scaling { c with txExclusive := false }
  dsimp only at h
  generalize tcpConnAck { c with txExclusive := false } = u at h hack
  cases h
  rw [writeCatchUp_scaling]
  split <;> exact hack

theorem shutdownTxSend_scaling {tx : TxResult} {ok : Bool} {d : List Deferred}
    (h : shutdownTxSend c tx = .ok (c',ok,d)) : c'.scaling = c.scaling := by
  have hctl := tcpTxCtl_scaling c (tcpFin ||| tcpAck) ⟨false,false,0,0⟩ tx
  rw [shutdownTxSend] at h
  dsimp only at h
  generalize tcpTxCtl c (tcpFin ||| tcpAck) ⟨false,false,0,0⟩ tx = u at h hctl
  split at h
  · cases h
    exact hctl
  split at h
  · obtain ⟨⟨c₁,d₁⟩,hset,h⟩ := bind_eq_ok h
    have hstate := (tcpConnSetState_scaling hset).trans hctl
    cases h
    exact hstate
  split at h
  · obtain ⟨⟨c₁,d₁⟩,hset,h⟩ := bind_eq_ok h
    have hstate := (tcpConnSetState_scaling hset).trans hctl
    cases h
    exact hstate
  · cases h
    exact hctl

theorem SendSection.scaling (h : SendSection c c') : c'.scaling = c.scaling := by
  cases h with
  | header => rfl
  | start h =>
    rw [writeStart] at h
    split at h
    · cases h
    · cases h
      rfl
  | @round c₁ m rest rest' alloc push h =>
    have hfill : c₁.scaling = c.scaling := by
      rw [txFill] at h
      split at h
      · cases h
        rfl
      · obtain ⟨-,h⟩ := Option.ite_none_right_eq_some.mp h
        cases h
        rfl
    rw [txEmit]
    split <;> exact hfill
  | finish h => exact tcpWriteFinish_scaling h
  | retransmit h =>
    rw [retransmitStart] at h
    split at h
    · cases h
    · cases h
      rfl
  | resend => rfl
  | shutdown h => exact shutdownTxSend_scaling h
  | timeout => rfl
  | timeWait => rfl

theorem Reads.scaling {len : ℕ} {r : ReadResult} (h : Reads c len c' r) :
    c'.scaling = c.scaling := by
  cases h with
  | refused => rfl
  | takes =>
    rw [takeText_fst]
    rfl

theorem tcpReadFinish_scaling {k : ℕ} (h : tcpReadFinish c k = .ok c') :
    c'.scaling = c.scaling := by
  rw [tcpReadFinish] at h
  split at h
  · cases h
    rfl
  · obtain ⟨m,-,h⟩ := bind_eq_ok h
    cases h
    rfl

theorem step_scaling (hpast : s.conn.state ≠ .synSent) (hev : Calm s ev)
    (hstep : s.step ev = .ok (some s')) : s'.conn.scaling = s.conn.scaling := by
  have hdoes := step_does hstep
  generalize s'.conn = c',s'.readers = readers' at hdoes
  cases hdoes with
  | recv hrx => exact ((tcpRxConn_spec hrx).2.past hpast).2
  | reads hr => exact hr.scaling
  | finish _ hf => exact tcpReadFinish_scaling hf
  | tryFinish => rfl
  | shutdown => exact tcpConnShutdownRx_scaling s.conn
  | fail hfail => exact tcpConnFail_scaling hfail
  | @send c₁ _ =>
    have hsection := (hev.2 c₁ rfl).scaling
    exact hsection

/-- After the exchange the window stays within its limit, and the scales are what they were. -/
theorem Exchanged.run (h : Exchanged winmax rcvMss peer ours c) (hrun : Run Calm (.start c) s) :
    s.conn.rx.rcvWnd.toNat ≤ c.winmax.toNat ∧ s.conn.scaling = c.scaling := by
  obtain ⟨hagreed,hpast,-⟩ := h.agreed
  have hsetup := hagreed.setup
  have hunused : c.Unused :=
    ⟨hpast,hsetup.rxq,hsetup.rxqOoo,hsetup.rxExclusive,hsetup.rcvWnd⟩
  obtain ⟨hledger,hwin,hscale⟩ : Ledger true s.conn s.readers ∧ s.conn.winmax = c.winmax ∧
      s.conn.scaling = c.scaling := by
    refine hrun.invariant (P:=fun t => Ledger true t.conn t.readers ∧ t.conn.winmax = c.winmax ∧
      t.conn.scaling = c.scaling) ⟨hunused.ledger true,rfl,rfl⟩ fun t ev t' ht hev hstep => ?_
    obtain ⟨hledger,hwin,hscale⟩ := ht
    obtain ⟨_,hmoved⟩ := step_moved hledger (by simp) hev.1 hstep
    exact ⟨hmoved.ledger,hmoved.winmax.trans hwin,
      (step_scaling hledger.past hev hstep).trans hscale⟩
  have hroom := hledger.room
  have hpos := hledger.owned.unread_nonneg
  rw [hwin] at hroom
  exact ⟨by omega,hscale⟩

/-- A header that `c` writes, for an end that shifts the window by `wscale`. -/
def Conn.Tells (c : Conn) (wscale : ℕ) : Prop :=
  Told c.rx.rcvWnd c.rcvWscale (readWindow wscale c.headerWin)

/-- All headers tell the window if the limit has 16 bits when it is scaled, and the first one
does not if it has more. -/
theorem Exchanged.tells_iff (h : Exchanged winmax rcvMss peer ours c) :
    (∀ s, Run Calm (.start c) s → s.conn.Tells c.rcvWscale) ↔
      winmax.toNat < 2^30 ∨ peer.wscale = none := by
  obtain ⟨hagreed,-,-⟩ := h.agreed
  have hsetup := hagreed.setup
  have hle : c.rcvWscale ≤ 14 := by
    rw [hsetup.rcvWscale]
    split
    · exact scaleLoop_le 14 _
    · exact Nat.zero_le _
  have hlimit : c.winmax.toNat < 2^(16+c.rcvWscale) ↔
      winmax.toNat < 2^30 ∨ peer.wscale = none := by
    rw [hsetup.winmax,hsetup.rcvWscale]
    cases hp : peer.wscale with
    | some w =>
      simp only [Option.isSome_some,if_true,reduceCtorEq,or_false]
      exact lt_scaleLoop_iff 14 winmax.toNat
    | none =>
      simp only [Option.isSome_none,Bool.false_eq_true,if_false,or_true,iff_true]
      split
      · rename_i hlt
        exact Nat.lt_of_lt_of_le (BitVec.lt_def.mp hlt) (by decide)
      · decide
  rw [← hlimit]
  constructor
  · intro hall
    have hstart : c.Tells c.rcvWscale := hall (.start c) .refl
    rw [Conn.Tells,Conn.headerWin,told_iff hle,hsetup.rcvWnd] at hstart
    exact hstart
  · intro hlt s hrun
    obtain ⟨hwnd,hscale⟩ := h.run hrun
    have hw : s.conn.rcvWscale = c.rcvWscale := congrArg (·.2.2) hscale
    rw [Conn.Tells,Conn.headerWin,hw,told_iff hle]
    omega

end Later

/-! ### Two ends of this stack -/

/-- What an end that offers both options offers. -/
def offerOf (winmax : BitVec 32) (rcvMss : ℕ) : Offer :=
  ⟨some (rcvMss%65536),some (tcpScaleWindow winmax)⟩

def synOptions (winmax : BitVec 32) (rcvMss : ℕ) : Options :=
  ⟨true,true,rcvMss,tcpScaleWindow winmax⟩

section Completes

variable (winmax winmax' : BitVec 32) (rcvMss rcvMss' : ℕ) (iss iss' : BitVec 32)

theorem synOptions_offers :
    Offers (tcpPushOptions (synOptions winmax rcvMss)) (offerOf winmax rcvMss) :=
  tcpPushOptions_offers (synOptions winmax rcvMss) (scaleLoop_le 14 _)

theorem ctlPacket_options (c : Conn) (flags : Flags) (o : Options) :
    (ctlPacket c flags o).options = tcpPushOptions o := by
  have hlen := tcpPushOptions_length o
  apply List.take_of_length_le
  change (tcpPushOptions o).length ≤ 4*(5+o.optMss.toNat+o.optWscale.toNat)-20
  omega

theorem ctlPacket_textLen (c : Conn) (flags : Flags) (o : Options) :
    (ctlPacket c flags o).textLen = 0 := by
  have hlen := tcpPushOptions_length o
  have hoff : 20+(tcpPushOptions o).length = 4*(5+o.optMss.toNat+o.optWscale.toNat) := by omega
  change BitVec.ofNat 32 (20+(tcpPushOptions o).length)-
    BitVec.ofNat 32 (4*(5+o.optMss.toNat+o.optWscale.toNat)) = 0
  rw [hoff]
  exact BitVec.sub_self _

theorem ctlPacket_passes (c c' : Conn) (flags : Flags) (o : Options) :
    (ctlPacket c flags o).Passes c' := by
  have hlen := ctlPacket_textLen c flags o
  refine ⟨?_,?_,?_⟩
  · change 20 ≤ 4*(5+o.optMss.toNat+o.optWscale.toNat)
    omega
  · rw [hlen]
    exact Nat.zero_le _
  · rw [hlen]
    exact Nat.zero_le _

theorem tcpDial_ok : ∃ c,
    tcpDial (tcpConnAlloc winmax rcvMss iss) true .sent =
      .ok (some c,[.ctl tcpSyn (synOptions winmax rcvMss)]) ∧ c.state = .synSent ∧ c.iss = iss :=
  ⟨_,rfl,rfl,rfl⟩

/-- The connection of a listener that answers `p`, as it sends its SYN/ACK. -/
def answering (winmax : BitVec 32) (rcvMss : ℕ) (iss : BitVec 32) (p : Packet) (peer : Offer) :
    Conn :=
  Conn.parsed
    { tcpConnAlloc winmax rcvMss iss with irs := p.seq, rx := ⟨p.seq+1,winmax,[],[],0⟩ } peer

theorem tcpRxListener_ok (q : Conn) {o : Options} {peer : Offer}
    (hoffers : Offers (tcpPushOptions o) peer) : ∃ c,
    tcpRxListener (some (tcpConnAlloc winmax rcvMss iss)) true .sent (ctlPacket q tcpSyn o) =
      .ok (some c,[.ctl (tcpSyn ||| tcpAck) ⟨peer.mss.isSome,peer.wscale.isSome,rcvMss,
        (answering winmax rcvMss iss (ctlPacket q tcpSyn o) peer).rcvWscale⟩]) := by
  have hlen := tcpPushOptions_length o
  have hoff : 20+(ctlPacket q tcpSyn o).rest.length = 4*(ctlPacket q tcpSyn o).off.val := by
    change 20+(tcpPushOptions o).length = 4*(5+o.optMss.toNat+o.optWscale.toNat)
    omega
  have hsyn : has (ctlPacket q tcpSyn o).flags tcpRst = false ∧
      has (ctlPacket q tcpSyn o).flags tcpAck = false ∧
      has (ctlPacket q tcpSyn o).flags tcpSyn = true :=
    ⟨by change has tcpSyn tcpRst = false; decide,by change has tcpSyn tcpAck = false; decide,
      by change has tcpSyn tcpSyn = true; decide⟩
  rw [← ctlPacket_options q tcpSyn o] at hoffers
  rw [tcpRxListener,hsyn.1,hsyn.2.1,hsyn.2.2,if_neg (by decide),if_neg (by decide),
    if_neg (by decide),if_neg (not_not.mpr hoff)]
  dsimp only
  rw [tcpParseOptions_offers _ hoffers (by omega)]
  exact ⟨_,rfl⟩

theorem wrapsLte_succ (x : BitVec 32) : wrapsLte (x+1) x = false := by
  rw [wrapsLte,BitVec.add_comm,BitVec.add_sub_cancel]
  decide

theorem wrapsGt_succ (x : BitVec 32) : wrapsGt (x+1) x = true := by
  have hback : x-(x+1) = -1 := by bv_omega
  rw [wrapsGt,hback]
  decide

theorem wrapsGt_self (x : BitVec 32) : wrapsGt x x = false := by
  rw [wrapsGt,BitVec.sub_self]
  decide

theorem synAck_establishes {c q : Conn} {o : Options} {peer : Offer} (tx : TxResult)
    (hst : c.state = .synSent) (hack : q.rx.rcvNxt = c.iss+1)
    (hoffers : Offers (tcpPushOptions o) peer) : ∃ c' d,
    tcpRxConn ⟨c.iss+1,tx⟩ c (ctlPacket q (tcpSyn ||| tcpAck) o) = .ok (c',d) ∧
      c'.state = .established := by
  have hpass := ctlPacket_passes q c (tcpSyn ||| tcpAck) o
  have hlen := ctlPacket_textLen q (tcpSyn ||| tcpAck) o
  rw [← ctlPacket_options q (tcpSyn ||| tcpAck) o] at hoffers
  have hpack : (ctlPacket q (tcpSyn ||| tcpAck) o).ack = c.iss+1 := hack
  have hflags : (ctlPacket q (tcpSyn ||| tcpAck) o).mbuf.flags = tcpSyn ||| tcpAck := rfl
  have hrst : has (tcpSyn ||| tcpAck) tcpRst = false := by decide
  have hsynAck : has (tcpSyn ||| tcpAck) tcpAck = true := by decide
  generalize ctlPacket q (tcpSyn ||| tcpAck) o = p at *
  have hslow : slowPath ⟨c.iss+1,tx⟩ c p.mbuf p.ack p.textLen = true := by
    simp [slowPath,hlen]
  have hroom := hpass.textLen_eq.2
  rw [tcpRxConn_passes hpass,if_pos hslow,tcpRxConnSlow,rxSlow,if_neg (by rw [hst]; decide),
    if_pos hst,rxSynSent,hflags,hpack,wrapsLte_succ,wrapsGt_self,if_neg (by decide),
    if_neg (by rw [hrst]; simp),if_neg (by rw [hrst]; decide),if_pos (by decide),rxSyn,
    tcpParseOptions_offers _ hoffers hroom,ok_bind]
  dsimp only
  generalize hc₁ : Conn.parsed _ peer = c₁
  have hparsed : c₁.state = .synSent ∧ c₁.iss = c.iss := by
    rw [← hc₁]
    exact ⟨hst,rfl⟩
  generalize hu : tcpConnAck { c₁ with sndUna := c.iss+1 } = u
  have hacked : u.1.state = .synSent ∧ u.1.iss = c.iss ∧ u.1.sndUna = c.iss+1 := by
    rw [← hu,tcpConnAck]
    split <;> exact ⟨hparsed.1,hparsed.2,rfl⟩
  obtain ⟨d,hd⟩ := tcpConnSetState_ok (c:={ u.1 with
      sndWnd := p.window c
      sndWl1 := p.mbuf.segSeq
      sndWl2 := c.iss+1 }) (s:=.established) (.inr (by rw [hacked.1]; decide))
  have hgt : wrapsGt u.1.sndUna u.1.iss = true := by
    rw [hacked.2.1,hacked.2.2]
    exact wrapsGt_succ _
  dsimp only at hd
  simp only [hflags,hsynAck,if_true,hgt]
  rw [hd]
  exact ⟨_,_,rfl,rfl⟩

theorem exchange_completes : ∃ c c',
    Exchanged winmax rcvMss (offerOf winmax' rcvMss') (offerOf winmax rcvMss) c ∧
    Exchanged winmax' rcvMss' (offerOf winmax rcvMss) (offerOf winmax' rcvMss') c' ∧
    c.state = .established ∧ c'.state = .synReceived := by
  have hsyn := synOptions_offers winmax rcvMss
  have hsynAck := synOptions_offers winmax' rcvMss'
  obtain ⟨c₁,hdial,hst,hiss⟩ := tcpDial_ok winmax rcvMss 0
  obtain ⟨c',hanswer⟩ := tcpRxListener_ok winmax' rcvMss' 0 (tcpConnAlloc winmax rcvMss 0) hsyn
  have hoffers : Offers
      (ctlPacket (tcpConnAlloc winmax rcvMss 0) tcpSyn (synOptions winmax rcvMss)).options
      (offerOf winmax rcvMss) := by
    rw [ctlPacket_options]
    exact hsyn
  obtain ⟨c,d,hrx,hest⟩ := synAck_establishes (q:=answering winmax' rcvMss' 0
      (ctlPacket (tcpConnAlloc winmax rcvMss 0) tcpSyn (synOptions winmax rcvMss))
      (offerOf winmax rcvMss)) .sent hst (by rw [hiss]; rfl) hsynAck
  have hstep : SynStep (offerOf winmax' rcvMss') c₁ c :=
    ⟨hst,_,_,d,fun _ => by rw [ctlPacket_options]; exact hsynAck,hrx⟩
  exact ⟨c,c',.dialed hdial List.mem_cons_self hsyn (.single hstep) (by rw [hest]; decide)
      (by rw [hest]; decide),
    .accepted hoffers hanswer List.mem_cons_self hsynAck,hest,
    (tcpRxListener_sent hoffers (setup_alloc ..) hanswer).2.1⟩

end Completes

/-- After the exchange of SYNs the scales of an end are those of its peer the other way round,
whether that is another end like it or one that works by the same rule.  The segments are no
longer than `rcv_mss` exactly when the peer offers a segment size or the default is no longer.
Headers tell the window to all of the peers exactly when the window is not scaled or less than
`2^30`, and headers from a peer that writes them in 16 bits are read as they were meant. -/
theorem window_scaling_iff {winmax : BitVec 32} {rcvMss : ℕ} {peer ours : Offer} {c : Conn}
    (h : Exchanged winmax rcvMss peer ours c) :
    (c.rcvWscale,c.sndWscale) = agreedScales peer.wscale ours.wscale ∧
    (∀ winmax' rcvMss' c', Exchanged winmax' rcvMss' ours peer c' →
      c.sndWscale = c'.rcvWscale ∧ c.rcvWscale = c'.sndWscale ∧
      ((∀ s s', Run Calm (.start c) s → Run Calm (.start c') s' →
          s.conn.Tells s'.conn.sndWscale) ↔ winmax.toNat < 2^30 ∨ peer.wscale = none)) ∧
    (c.sndMss ≤ c.rcvMss ↔ peer.mss.isSome = true ∨ tcpCalculateMss ethDefaultMtu ≤ rcvMss) ∧
    ((∀ s, Run Calm (.start c) s → s.conn.Tells (agreedScales peer.wscale ours.wscale).1) ↔
      winmax.toNat < 2^30 ∨ peer.wscale = none) ∧
    ∀ s, Run Calm (.start c) s → ∀ wscale wnd, wscale = (agreedScales peer.wscale ours.wscale).2 →
      wnd.toNat < 2^(16+wscale) →
      Told wnd wscale (readWindow s.conn.sndWscale ((wnd >>> wscale).setWidth 16)) := by
  obtain ⟨hagreed,-,-⟩ := h.agreed
  have hscales := h.scales
  have hswap : (c.rcvWscale,c.sndWscale) = agreedScales peer.wscale ours.wscale := by
    rw [agreedScales_swap,← hscales]
    rfl
  refine ⟨hswap,fun winmax' rcvMss' c' h' => ?_,?_,?_,?_⟩
  · have hpair := h'.scales
    rw [← hswap] at hpair
    obtain ⟨hrcv,hsnd⟩ := Prod.mk.inj hpair
    refine ⟨hsnd.symm,hrcv.symm,?_⟩
    rw [← h.tells_iff]
    constructor
    · intro hall s hrun
      rw [← hrcv]
      exact hall s _ hrun .refl
    · intro hall s s' hrun hrun'
      have hw : s'.conn.sndWscale = c'.sndWscale := congrArg (·.1) (h'.run hrun').2
      rw [hw,hrcv]
      exact hall s hrun
  · rw [hagreed.sndMss,hagreed.setup.rcvMss]
    cases peer.mss with
    | none => simp
    | some mss => simp
  · rw [← hswap]
    exact h.tells_iff
  · intro s hrun wscale wnd hw hlt
    rw [← hswap] at hw
    have hsnd : s.conn.sndWscale = wscale := by
      rw [hw]
      exact congrArg (·.1) (h.run hrun).2
    have hle : wscale ≤ 14 := by
      rw [hw]
      change c.sndWscale ≤ 14
      rw [hagreed.sndWscale]
      cases hp : peer.wscale with
      | none => exact Nat.zero_le _
      | some w => exact hagreed.peer_le w hp
    rw [hsnd]
    exact (told_iff hle wnd).mpr hlt

/-- One end with the window of the source and one with `0x3fffff`. -/
theorem window_scaling_iff_pair : ∃ c,
    Exchanged 0x1ffff 1460 (offerOf 0x3fffff 1360) (offerOf 0x1ffff 1460) c ∧
    c.sndWscale = 6 ∧ c.rcvWscale = 1 ∧ c.sndMss ≤ c.rcvMss ∧
    ∀ s, Run Calm (.start c) s → s.conn.Tells 1 := by
  obtain ⟨c,c',h,-⟩ := exchange_completes 0x1ffff 0x3fffff 1460 1360
  obtain ⟨hscales,-,hmss,htells,-⟩ := window_scaling_iff h
  have hagreed : agreedScales (offerOf 0x3fffff 1360).wscale (offerOf 0x1ffff 1460).wscale =
      (1,6) := by
    decide
  rw [hagreed] at hscales htells
  obtain ⟨hrcv,hsnd⟩ := Prod.mk.inj hscales
  exact ⟨c,h,hsnd,hrcv,hmss.mpr (.inl rfl),htells.mpr (.inl (by decide))⟩

/-- With an MTU of 1400 a peer that offers no segment size is sent segments of 1460 bytes.  With
the largest window, 14 shifts leave `2^16`, and the header has 0. -/
theorem default_mss_too_long :
    (∃ c, Exchanged 0x1ffff (tcpCalculateMss 1400) ⟨none,none⟩ ⟨none,none⟩ c ∧
      c.rcvMss < c.sndMss) ∧
    ∃ c c', Exchanged 0x40000000 1460 (offerOf 0x1ffff 1460) (offerOf 0x40000000 1460) c ∧
      Exchanged 0x1ffff 1460 (offerOf 0x40000000 1460) (offerOf 0x1ffff 1460) c' ∧
      c.rx.rcvWnd = 0x40000000 ∧ readWindow c'.sndWscale c.headerWin = 0 := by
  constructor
  · have hnone : Offers (tcpPushOptions ⟨false,false,0,0⟩) ⟨none,none⟩ := .nil
    obtain ⟨c,hanswer⟩ := tcpRxListener_ok 0x1ffff (tcpCalculateMss 1400) 0
      (tcpConnAlloc 0x1ffff 1460 0) hnone
    have hx : Exchanged 0x1ffff (tcpCalculateMss 1400) ⟨none,none⟩ ⟨none,none⟩ c :=
      .accepted (by rw [ctlPacket_options]; exact hnone) hanswer List.mem_cons_self .nil
    have hagreed := hx.agreed.1
    refine ⟨c,hx,?_⟩
    rw [hagreed.sndMss,hagreed.setup.rcvMss]
    decide
  · obtain ⟨c,c',h,h',-⟩ := exchange_completes 0x40000000 0x1ffff 1460 1460
    have hsetup := h.agreed.1.setup
    have hwnd : c.rx.rcvWnd = 0x40000000 := by rw [hsetup.rcvWnd,hsetup.winmax]; rfl
    have hrcv : c.rcvWscale = 14 := by rw [hsetup.rcvWscale]; decide
    have hsnd : c'.sndWscale = 14 := by rw [h'.agreed.1.sndWscale]; decide
    refine ⟨c,c',h,h',hwnd,?_⟩
    rw [hsnd,Conn.headerWin,hwnd,hrcv]
    decide

end Vessel.Tcp
