import Vessel.TcpText

/-! What one received packet does to the receive side of a connection. -/
namespace Vessel.Tcp

open Serial

/-! ### Acceptability -/

section Acceptable

variable {r : Ingress} {n e : ℤ} {len seq : BitVec 32}

theorem in_window {s : BitVec 32} (h : r.At n e) (hopen : n < e)
    (hlo : wrapsLte r.rcvNxt s = true) (hhi : wrapsLt s (r.rcvNxt + r.rcvWnd) = true) :
    ∃ b, s = serial b ∧ n ≤ b ∧ b < e := by
  have hb := h.bounded
  unfold maxWindow at hb
  obtain ⟨b,rfl,hb₁,hb₂⟩ := exists_serial_near (n+1) s
  rw [h.nxt,wrapsLte_serial (by omega) (by omega)] at hlo
  rw [h.edge,wrapsLt_serial (by omega) (by omega)] at hhi
  exact ⟨b,rfl,hlo,hhi⟩

/-- An acceptable segment with text has its first or its last number in the window. -/
theorem isAcceptable_position (h : r.At n e) (hpos : 0 < len.toNat)
    (hsmall : (len.toNat : ℤ) ≤ maxSpan) (hacc : isAcceptable r len seq = true) :
    ∃ a, seq = serial a ∧ a < e ∧ n < a + len.toNat := by
  have hlen : len ≠ 0 := by
    rintro rfl
    simp at hpos
  have hlast : seq + len - 1 = seq + serial ((len.toNat : ℤ) - 1) := by
    rw [← serial_sub,serial_self,BitVec.sub_eq_add_neg,
      BitVec.add_assoc,← BitVec.sub_eq_add_neg]
    rfl
  unfold maxSpan at hsmall
  rw [isAcceptable,if_neg (fun hc => hlen hc.1),if_neg (fun hc => hlen hc.1)] at hacc
  by_cases hzero : r.rcvWnd = 0
  · rw [if_pos ⟨BitVec.lt_def.mpr hpos,hzero⟩] at hacc
    simp at hacc
  · have hopen : n < e := by
      have := h.le
      have := mt h.window_zero.mpr hzero
      omega
    rw [if_neg (fun hc => hzero hc.2),Bool.or_eq_true,Bool.and_eq_true,Bool.and_eq_true] at hacc
    rcases hacc with ⟨hlo,hhi⟩ | ⟨hlo,hhi⟩
    · obtain ⟨a,rfl,ha,hae⟩ := in_window h hopen hlo hhi
      exact ⟨a,rfl,hae,by omega⟩
    · obtain ⟨b,hb,hnb,hbe⟩ := in_window h hopen hlo hhi
      refine ⟨b - ((len.toNat : ℤ) - 1),?_,by omega,by omega⟩
      rw [← serial_sub,← hb,hlast,BitVec.add_sub_cancel]

end Acceptable

/-! ### What the pieces of the handler keep -/

/-- The receive side of the connection is the same. -/
structure Keeps (c c' : Conn) : Prop where
  rx : c'.rx = c.rx
  rxClosed : c'.rxClosed = c.rxClosed
  rxExclusive : c'.rxExclusive = c.rxExclusive
  winmax : c'.winmax = c.winmax
  irs : c'.irs = c.irs
  rcvMss : c'.rcvMss = c.rcvMss
  err : c'.err = c.err

theorem Keeps.setState (c : Conn) (s : State) : Keeps c { c with state := s } :=
  ⟨rfl,rfl,rfl,rfl,rfl,rfl,rfl⟩

/-- States of a connection whose peer has sent its FIN. -/
def finSeen : State → Bool
  | .closeWait | .closing | .lastAck | .timeWait => true
  | _ => false

/-- A change of state that no FIN, no reset and no SYN is the reason of. -/
structure Later (s s' : State) : Prop where
  syn : s' = .synSent → s = .synSent
  fin : finSeen s' = true → finSeen s = true
  closed : s' = .closed → s = .closed ∨ finSeen s = true
  seen : finSeen s = true ∨ s = .closed → finSeen s' = true ∨ s' = .closed

theorem Keeps.refl (c : Conn) : Keeps c c := ⟨rfl,rfl,rfl,rfl,rfl,rfl,rfl⟩

theorem Keeps.trans {c c' c'' : Conn} (h : Keeps c c') (h' : Keeps c' c'') : Keeps c c'' where
  rx := h'.rx.trans h.rx
  rxClosed := h'.rxClosed.trans h.rxClosed
  rxExclusive := h'.rxExclusive.trans h.rxExclusive
  winmax := h'.winmax.trans h.winmax
  irs := h'.irs.trans h.irs
  rcvMss := h'.rcvMss.trans h.rcvMss
  err := h'.err.trans h.err

theorem Keeps.withRx {c c' : Conn} (h : Keeps c c') (rx : Ingress) :
    Keeps { c with rx := rx } { c' with rx := rx } :=
  ⟨rfl,h.rxClosed,h.rxExclusive,h.winmax,h.irs,h.rcvMss,h.err⟩

theorem Later.refl (s : State) : Later s s := ⟨id,id,Or.inl,id⟩

theorem Later.trans {s s' s'' : State} (h : Later s s') (h' : Later s' s'') : Later s s'' where
  syn := h.syn ∘ h'.syn
  fin := h.fin ∘ h'.fin
  closed := fun hc => by
    rcases h'.closed hc with hc | hc
    · exact h.closed hc
    · exact Or.inr (h.fin hc)
  seen := h'.seen ∘ h.seen

section Pieces

variable {c : Conn} {env : Env} {m : Mbuf} {seq ack win len : BitVec 32}

theorem tcpConnSetState_ok {s : State} (h : c.state = .closed ∨ c.state.ctorIdx < s.ctorIdx) :
    ∃ d, tcpConnSetState c s = .ok ({ c with state := s },d) := by
  have hassert := assertThat_true (decide_eq_true h)
  exact ⟨_,by rw [tcpConnSetState,hassert,ok_bind]; rfl⟩

theorem tcpConnAck_keeps (c : Conn) : Keeps c (tcpConnAck c).1 ∧ (tcpConnAck c).1.state = c.state := by
  unfold tcpConnAck
  split
  · exact ⟨Keeps.refl c,rfl⟩
  · exact ⟨⟨rfl,rfl,rfl,rfl,rfl,rfl,rfl⟩,rfl⟩

theorem ackUpdate_keeps (c : Conn) (seq ack win : BitVec 32) :
    Keeps c (ackUpdate c seq ack win).1 ∧ (ackUpdate c seq ack win).1.state = c.state := by
  have hack := tcpConnAck_keeps { c with sndUna := ack }
  unfold ackUpdate
  by_cases hsame : c.sndUna = ack
  · simp only [hsame,decide_true,if_true]
    split
    · exact ⟨⟨rfl,rfl,rfl,rfl,rfl,rfl,rfl⟩,rfl⟩
    · exact ⟨Keeps.refl c,rfl⟩
  · simp only [hsame,decide_false,Bool.false_eq_true,if_false]
    obtain ⟨⟨h₁,h₂,h₃,h₄,h₅,h₆,h₇⟩,hs⟩ := hack
    split
    · exact ⟨⟨h₁,h₂,h₃,h₄,h₅,h₆,h₇⟩,hs⟩
    · exact ⟨⟨h₁,h₂,h₃,h₄,h₅,h₆,h₇⟩,hs⟩

theorem dupAck_keeps (c : Conn) (ack len : BitVec 32) (same updated : Bool) :
    Keeps c (dupAck c ack len same updated).1 ∧
      (dupAck c ack len same updated).1.state = c.state := by
  unfold dupAck
  split
  · dsimp only
    split
    · split <;> exact ⟨⟨rfl,rfl,rfl,rfl,rfl,rfl,rfl⟩,rfl⟩
    · exact ⟨⟨rfl,rfl,rfl,rfl,rfl,rfl,rfl⟩,rfl⟩
  · split <;> exact ⟨⟨rfl,rfl,rfl,rfl,rfl,rfl,rfl⟩,rfl⟩

theorem finAcked_ok (env : Env) (c : Conn) : ∃ finished c' d, finAcked env c = .ok (finished,c',d) ∧
    Keeps c c' ∧ Later c.state c'.state ∧ (c'.state = .finWait1 → c'.sndUna ≠ env.sndNxt) := by
  unfold finAcked
  split
  · rename_i h
    obtain ⟨d,hd⟩ := tcpConnSetState_ok (c:=c) (s:=.finWait2) (by rw [h.1]; decide)
    refine ⟨false,{ c with state := .finWait2 },d,by rw [hd]; rfl,Keeps.setState c _,?_,by simp⟩
    rw [h.1]
    exact ⟨by simp,by simp [finSeen],by simp,by simp [finSeen]⟩
  split
  · rename_i h
    obtain ⟨d,hd⟩ := tcpConnSetState_ok (c:=c) (s:=.timeWait) (by rw [h.1]; decide)
    refine ⟨false,{ c with state := .timeWait },d,by rw [hd]; rfl,Keeps.setState c _,?_,by simp⟩
    rw [h.1]
    exact ⟨by simp,by simp [finSeen],by simp,by simp [finSeen]⟩
  split
  · rename_i h
    obtain ⟨d,hd⟩ := tcpConnSetState_ok (c:=c) (s:=.closed) (by rw [h.1]; decide)
    refine ⟨true,{ c with state := .closed },d ++ [.put],by rw [hd]; rfl,Keeps.setState c _,?_,by simp⟩
    rw [h.1]
    exact ⟨by simp,by simp [finSeen],by simp [finSeen],by simp⟩
  · rename_i h _ _
    exact ⟨_,_,_,rfl,Keeps.refl c,Later.refl _,fun hs hn => h ⟨hs,hn⟩⟩

theorem rxFin_ok (v : Slow) (htext : takesText v.conn.state = true)
    (hack : v.conn.state = .finWait1 → v.conn.sndUna ≠ env.sndNxt) :
    ∃ v', rxFin env v = .ok v' ∧ Keeps v.conn v'.conn ∧ finSeen v'.conn.state = true := by
  have hassert : assertThat (decide (v.conn.state ≠ .synReceived)) = .ok () := by
    apply assertThat_true
    cases hs : v.conn.state <;> simp_all [takesText]
  have hcases : v.conn.state = .established ∨ v.conn.state = .finWait1 ∨
      v.conn.state = .finWait2 := by
    simpa [takesText,or_assoc] using htext
  rw [rxFin,hassert,ok_bind]
  rcases hcases with hs | hs | hs
  · obtain ⟨d,hd⟩ := tcpConnSetState_ok (c:=v.conn) (s:=.closeWait) (by rw [hs]; decide)
    refine ⟨{ v with conn := { v.conn with state := .closeWait }, deferred := v.deferred ++ d },
      by rw [if_pos hs,hd]; rfl,Keeps.setState v.conn _,rfl⟩
  · obtain ⟨d,hd⟩ := tcpConnSetState_ok (c:=v.conn) (s:=.closing) (by rw [hs]; decide)
    have hne := assertThat_true (decide_eq_true (hack hs))
    refine ⟨{ v with conn := { v.conn with state := .closing }, deferred := v.deferred ++ d },
      by rw [if_neg (by simp [hs]),if_pos hs,hne,ok_bind,hd]; rfl,Keeps.setState v.conn _,rfl⟩
  · obtain ⟨d,hd⟩ := tcpConnSetState_ok (c:=v.conn) (s:=.timeWait) (by rw [hs]; decide)
    refine ⟨⟨{ v.conn with state := .timeWait },true,v.doDrop,v.deferred ++ d⟩,
      by rw [if_neg (by simp [hs]),if_neg (by simp [hs]),if_pos hs,hd]; rfl,
      Keeps.setState v.conn _,rfl⟩

end Pieces

/-! ### The slow path -/

/-- The section ends and leaves the receive side as it was. -/
def Quiet (c : Conn) (res : Except Abort Slow) : Prop :=
  ∃ v, res = .ok v ∧ Keeps c v.conn ∧ Later c.state v.conn.state

/-- The section ends as `tcp_rx_text` does on the segment `m`. -/
structure Texts (c : Conn) (m : Mbuf) (res : Except Abort Slow) : Prop where
  error : ∀ a, tcpRxText c.rx m = .error a → res = .error a
  left : tcpRxText c.rx m = .ok none → Quiet c res
  taken : ∀ t, tcpRxText c.rx m = .ok (some t) → (t.wake = true → t.rx.rxq ≠ []) →
    ∃ v, res = .ok v ∧ Keeps { c with rx := t.rx } v.conn ∧
      (t.fin = false → Later c.state v.conn.state) ∧
      (t.fin = true → finSeen v.conn.state = true)

section Slow

variable {c c' : Conn} {env : Env} {m : Mbuf} {ack win len : BitVec 32} {res : Except Abort Slow}

theorem Quiet.of_keeps (h : Keeps c c') (hs : Later c.state c'.state) (hq : Quiet c' res) :
    Quiet c res := by
  obtain ⟨v,hv,hk,hl⟩ := hq
  exact ⟨v,hv,h.trans hk,hs.trans hl⟩

theorem Texts.of_keeps (h : Keeps c c') (hs : Later c.state c'.state) (ht : Texts c' m res) :
    Texts c m res := by
  obtain ⟨herr,hleft,htaken⟩ := ht
  rw [h.rx] at herr hleft htaken
  refine ⟨herr,fun hn => (hleft hn).of_keeps h hs,fun t ht hw => ?_⟩
  obtain ⟨v,hv,hk,hl,hf⟩ := htaken t ht hw
  exact ⟨v,hv,(h.withRx t.rx).trans hk,fun hfin => hs.trans (hl hfin),hf⟩

theorem rxSegmentText_texts (v : Slow) (hlen : len > 0) (htext : takesText v.conn.state = true)
    (hack : v.conn.state = .finWait1 → v.conn.sndUna ≠ env.sndNxt) :
    Texts v.conn { m with segEnd := m.segSeq + len }
      (rxSegmentText v m len >>= fun p => if p.2 then rxFin env p.1 else pure p.1) := by
  have hif : len > 0 ∧ takesText v.conn.state = true := ⟨hlen,htext⟩
  refine ⟨fun a ha => ?_,fun hn => ?_,fun t ht hw => ?_⟩
  · simp only [rxSegmentText,if_pos hif,ha]
    rfl
  · refine ⟨textDone v none,?_,⟨rfl,rfl,rfl,rfl,rfl,rfl,rfl⟩,Later.refl _⟩
    simp only [rxSegmentText,if_pos hif,hn,ok_bind]
    rfl
  · have hwake : (!(some t).elim false Text.wake ||
        !(textDone v (some t)).conn.rx.rxq.isEmpty) = true := by
      change (!t.wake || !t.rx.rxq.isEmpty) = true
      cases htw : t.wake with
      | false => rfl
      | true => simpa using hw htw
    have hused : (!(some t).elim false Text.wake || !(textDone v (some t)).doDrop) = true :=
      Bool.or_true _
    have hseg : rxSegmentText v m len = .ok (textDone v (some t),t.fin) := by
      simp only [rxSegmentText,if_pos hif,ht,ok_bind]
      rw [assertThat_true hwake,ok_bind,assertThat_true hused]
      rfl
    rw [hseg,ok_bind]
    cases hf : t.fin with
    | false => exact ⟨textDone v (some t),rfl,⟨rfl,rfl,rfl,rfl,rfl,rfl,rfl⟩,fun _ => Later.refl _,by simp⟩
    | true =>
      obtain ⟨v',hv',hk,hs⟩ := rxFin_ok (textDone v (some t)) htext hack
      exact ⟨v',hv',⟨hk.rx,hk.rxClosed,hk.rxExclusive,hk.winmax,hk.irs,hk.rcvMss,hk.err⟩,by simp,
        fun _ => hs⟩

/-- Either nothing happens on the receive side, or text is taken before any FIN. -/
def Settles (c : Conn) (m : Mbuf) (text : Prop) (res : Except Abort Slow) : Prop :=
  Quiet c res ∨ text ∧ ¬(finSeen c.state = true ∨ c.state = .closed) ∧ Texts c m res

theorem Settles.of_keeps {text : Prop} (h : Keeps c c') (hs : Later c.state c'.state)
    (hset : Settles c' m text res) : Settles c m text res := by
  rcases hset with hq | ⟨ht,hopen,htexts⟩
  · exact Or.inl (hq.of_keeps h hs)
  · exact Or.inr ⟨ht,fun hc => hopen (hs.seen hc),htexts.of_keeps h hs⟩

theorem rxAccepted_settles (v : Slow) (same updated : Bool) :
    Settles v.conn { m with segEnd := m.segSeq + len } (len > 0)
      (rxAccepted env v m ack len same updated) := by
  obtain ⟨hk,hs⟩ := dupAck_keeps v.conn ack len same updated
  obtain ⟨finished,c',d,hfin,hk',hl',hack⟩ := finAcked_ok env (dupAck v.conn ack len same updated).1
  rw [hs] at hl'
  refine Settles.of_keeps (hk.trans hk') hl' ?_
  let v' : Slow := { v with
    conn := c', deferred := v.deferred ++ (dupAck v.conn ack len same updated).2 ++ d }
  have heq : rxAccepted env v m ack len same updated =
      if finished then pure v'
      else rxSegmentText v' m len >>= fun p => if p.2 then rxFin env p.1 else pure p.1 := by
    simp only [rxAccepted,hfin,ok_bind]
    rfl
  rw [heq]
  cases finished with
  | true => exact Or.inl ⟨v',rfl,Keeps.refl c',Later.refl _⟩
  | false =>
    by_cases htext : len > 0 ∧ takesText c'.state = true
    · refine Or.inr ⟨htext.1,?_,rxSegmentText_texts v' htext.1 htext.2 hack⟩
      cases hst : c'.state <;> simp_all [takesText,finSeen]
    · refine Or.inl ⟨v',?_,Keeps.refl c',Later.refl _⟩
      simp only [rxSegmentText,v',if_neg htext]
      rfl

theorem establish_ok (c : Conn) (seq ack win : BitVec 32) :
    ∃ c' d, establish c seq ack win = .ok (c',d) ∧ Keeps c c' ∧ Later c.state c'.state := by
  rw [establish]
  split
  · rename_i hs
    obtain ⟨d,hd⟩ := tcpConnSetState_ok (s:=.established)
      (c:={ c with sndWnd := win, sndWl1 := seq, sndWl2 := ack }) (by dsimp only; rw [hs]; decide)
    refine ⟨_,d,hd,⟨rfl,rfl,rfl,rfl,rfl,rfl,rfl⟩,?_⟩
    rw [hs]
    exact ⟨by simp,by simp [finSeen],by simp,by simp [finSeen]⟩
  · exact ⟨_,_,rfl,Keeps.refl _,Later.refl _⟩

theorem rxAckUpdate_settles (v : Slow) (acceptable : Bool) :
    Settles v.conn { m with segEnd := m.segSeq + len } (acceptable = true ∧ len > 0)
      (rxAckUpdate env v m ack win len acceptable) := by
  simp only [rxAckUpdate]
  split
  · exact Or.inl ⟨_,rfl,Keeps.refl _,Later.refl _⟩
  generalize hu : (if (wrapsLte v.conn.sndUna ack && wrapsLte ack env.sndNxt) = true then
    ackUpdate v.conn m.segSeq ack win else (v.conn,false,false,[])) = u
  have hkeeps : Keeps v.conn u.1 ∧ u.1.state = v.conn.state := by
    rw [← hu]
    split
    · exact ackUpdate_keeps ..
    · exact ⟨Keeps.refl _,rfl⟩
  have hlater : Later v.conn.state u.1.state := hkeeps.2 ▸ Later.refl _
  refine Settles.of_keeps hkeeps.1 hlater ?_
  cases acceptable with
  | false => exact Or.inl ⟨_,rfl,Keeps.refl _,Later.refl _⟩
  | true => exact (rxAccepted_settles _ _ _).imp_right fun h => ⟨⟨rfl,h.1⟩,h.2⟩

theorem rxAck_settles (v : Slow) (acceptable : Bool) :
    Settles v.conn { m with segEnd := m.segSeq + len } (acceptable = true ∧ len > 0)
      (rxAck env v m ack win len acceptable) := by
  simp only [rxAck]
  split
  · exact Or.inl ⟨v,rfl,Keeps.refl _,Later.refl _⟩
  split
  · exact Or.inl ⟨_,rfl,Keeps.refl _,Later.refl _⟩
  obtain ⟨c',d,hest,hk,hl⟩ := establish_ok v.conn m.segSeq ack win
  rw [hest,ok_bind]
  exact Settles.of_keeps hk hl (rxAckUpdate_settles _ acceptable)

end Slow

/-! ### A packet -/

/-- What is left of the receive side of a connection that failed. -/
structure FailedFrom (c c' : Conn) : Prop where
  state : c'.state = .closed
  rxClosed : c'.rxClosed = true
  rxExclusive : c'.rxExclusive = c.rxExclusive
  rcvNxt : c'.rx.rcvNxt = c.rx.rcvNxt
  rcvWnd : c'.rx.rcvWnd = c.rx.rcvWnd
  rxq : c'.rx.rxq = if c.rxExclusive then c.rx.rxq else []
  rxqOoo : c'.rx.rxqOoo = []
  winmax : c'.winmax = c.winmax
  irs : c'.irs = c.irs

theorem FailedFrom.keeps {c c' c'' : Conn} (h : FailedFrom c c') (hk : Keeps c' c'')
    (hs : c''.state = c'.state) : FailedFrom c c'' where
  state := hs.trans h.state
  rxClosed := hk.rxClosed.trans h.rxClosed
  rxExclusive := hk.rxExclusive.trans h.rxExclusive
  rcvNxt := by rw [hk.rx,h.rcvNxt]
  rcvWnd := by rw [hk.rx,h.rcvWnd]
  rxq := by rw [hk.rx,h.rxq]
  rxqOoo := by rw [hk.rx,h.rxqOoo]
  winmax := hk.winmax.trans h.winmax
  irs := hk.irs.trans h.irs

/-- The segment as `tcp_rx_text` gets it. -/
def Mbuf.withSpan (m : Mbuf) : Mbuf := { m with segEnd := m.segSeq + m.spanWord }

section Packet

variable {c : Conn} {env : Env} {m : Mbuf} {ack win : BitVec 32} {mem : ℕ → UInt8} {optlen : ℕ}

theorem tcpConnFail_ok (c : Conn) (err : ℤ) :
    ∃ c' d, tcpConnFail c err = .ok (c',d) ∧ FailedFrom c c' := by
  have hstate : ({ c with err := err } : Conn).state = .closed ∨
      ({ c with err := err } : Conn).state.ctorIdx < State.closed.ctorIdx := by
    cases hs : c.state <;> simp [State.ctorIdx]
  obtain ⟨d,hd⟩ := tcpConnSetState_ok hstate
  simp only [tcpConnFail,hd,ok_bind,tcpConnShutdownRx]
  split
  · rename_i hclosed
    exact ⟨_,_,rfl,rfl,hclosed,rfl,rfl,rfl,rfl,rfl,rfl,rfl⟩
  · exact ⟨_,_,rfl,rfl,rfl,rfl,rfl,rfl,rfl,rfl,rfl,rfl⟩

/-- A segment for a connection that is past its SYN leaves the receive side alone, fails the
connection, or brings text. -/
theorem rxSlow_cases (env : Env) (m : Mbuf) (hsyn : c.state ≠ .synSent) :
    (∃ v, rxSlow env c m ack win mem optlen = .ok v ∧ FailedFrom c v.conn ∧
      (has m.flags tcpRst = true ∨ has m.flags tcpSyn = true)) ∨
    Settles c m.withSpan (isAcceptable c.rx m.spanWord m.segSeq = true ∧ m.spanWord > 0)
      (rxSlow env c m ack win mem optlen) := by
  obtain ⟨c',d,hfail,hfrom⟩ := tcpConnFail_ok c eConnReset
  rw [rxSlow]
  split
  · exact Or.inr (Or.inl ⟨_,rfl,Keeps.refl _,Later.refl _⟩)
  split
  · right
    split
    · exact Or.inl ⟨_,rfl,Keeps.refl _,Later.refl _⟩
    · refine (rxAck_settles _ false).imp_right fun h => ?_
      simp at h
  rename_i hacc
  split
  · exact Or.inl ⟨_,by rw [hfail,ok_bind]; rfl,hfrom,Or.inl ‹_›⟩
  split
  · exact Or.inl ⟨_,by rw [hfail,ok_bind]; rfl,hfrom,Or.inr ‹_›⟩
  · right
    refine (rxAck_settles _ true).imp_right fun h => ⟨⟨?_,h.1.2⟩,h.2⟩
    simpa using hacc

/-- A connection that took a SYN, or tried to answer one. -/
structure Synced (c c' : Conn) : Prop where
  rcvNxt : c'.rx.rcvNxt = c'.irs + 1
  rcvWnd : c'.rx.rcvWnd = c.rx.rcvWnd ∨ c'.rx.rcvWnd.toNat ≤ c.winmax.toNat
  rxq : c'.rx.rxq = c.rx.rxq
  rxqOoo : c'.rx.rxqOoo = c.rx.rxqOoo
  rxClosed : c'.rxClosed = c.rxClosed
  rxExclusive : c'.rxExclusive = c.rxExclusive
  winmax : c'.winmax.toNat ≤ c.winmax.toNat
  err : c'.err = c.err

theorem Synced.keeps {c c' c'' : Conn} (h : Synced c c') (hk : Keeps c' c'') : Synced c c'' where
  rcvNxt := by rw [hk.rx,hk.irs,h.rcvNxt]
  rcvWnd := by rw [hk.rx]; exact h.rcvWnd
  rxq := by rw [hk.rx,h.rxq]
  rxqOoo := by rw [hk.rx,h.rxqOoo]
  rxClosed := hk.rxClosed.trans h.rxClosed
  rxExclusive := hk.rxExclusive.trans h.rxExclusive
  winmax := by rw [hk.winmax]; exact h.winmax
  err := hk.err.trans h.err

theorem tcpParseOptions_cases (mem : ℕ → UInt8) (optlen : ℕ) (hnxt : c.rx.rcvNxt = c.irs + 1) :
    tcpParseOptions c mem optlen = .error .endless ∨
      ∃ c' o, tcpParseOptions c mem optlen = .ok (c',o) ∧ Synced c c' ∧ c'.state = c.state := by
  have hmin : (if c.winmax < 65535 then c.winmax else 65535).toNat ≤ c.winmax.toNat := by
    split
    · exact Nat.le_refl _
    · rename_i hge
      exact BitVec.le_def.mp (BitVec.not_lt.mp hge)
  rw [tcpParseOptions]
  split
  · exact Or.inl rfl
  · rename_i s _
    refine Or.inr ⟨_,_,rfl,?_⟩
    cases s.mss with
    | none =>
      cases s.wscale with
      | none => exact ⟨⟨hnxt,Or.inr hmin,rfl,rfl,rfl,rfl,hmin,rfl⟩,rfl⟩
      | some w => exact ⟨⟨hnxt,Or.inl rfl,rfl,rfl,rfl,rfl,Nat.le_refl _,rfl⟩,rfl⟩
    | some v =>
      cases s.wscale with
      | none => exact ⟨⟨hnxt,Or.inr hmin,rfl,rfl,rfl,rfl,hmin,rfl⟩,rfl⟩
      | some w => exact ⟨⟨hnxt,Or.inl rfl,rfl,rfl,rfl,rfl,Nat.le_refl _,rfl⟩,rfl⟩

theorem tcpTxCtl_keeps (c : Conn) (flags : Flags) (opts : Options) (res : TxResult) :
    Keeps c (tcpTxCtl c flags opts res).2.1 ∧ (tcpTxCtl c flags opts res).2.1.state = c.state := by
  cases res <;> exact ⟨⟨rfl,rfl,rfl,rfl,rfl,rfl,rfl⟩,rfl⟩

theorem rxSyn_cases (hsyn : c.state = .synSent) :
    rxSyn env c m ack win mem optlen = .error .endless ∨
      ∃ v, rxSyn env c m ack win mem optlen = .ok v ∧ Synced c v.conn ∧
        finSeen v.conn.state = false ∧ v.conn.state ≠ .closed := by
  let c₁ := { c with irs := m.segSeq, rx := { c.rx with rcvNxt := m.segSeq+1 } }
  have hbind : ∀ f : Conn × Options → Except Abort Slow,
      ((Except.error .endless : Except Abort (Conn × Options)) >>= f) = .error .endless :=
    fun _ => rfl
  rw [rxSyn]
  rcases tcpParseOptions_cases (c:=c₁) mem optlen rfl with hend | ⟨c₂,o,hok,hs,hst⟩
  · left
    rw [hend,hbind]
  · right
    have hs' : Synced c c₂ := ⟨hs.rcvNxt,hs.rcvWnd,hs.rxq,hs.rxqOoo,hs.rxClosed,hs.rxExclusive,
      hs.winmax,hs.err⟩
    rw [hok,ok_bind]
    dsimp only
    generalize hu : (if has m.flags tcpAck = true then tcpConnAck { c₂ with sndUna := ack }
      else (c₂,[])) = u
    have hkeeps : Keeps c₂ u.1 ∧ u.1.state = .synSent := by
      rw [← hu,← hsyn,← show c₂.state = c.state from hst]
      split
      · have := tcpConnAck_keeps { c₂ with sndUna := ack }
        exact ⟨⟨this.1.rx,this.1.rxClosed,this.1.rxExclusive,this.1.winmax,this.1.irs,
          this.1.rcvMss,this.1.err⟩,this.2⟩
      · exact ⟨Keeps.refl _,rfl⟩
    split
    · obtain ⟨d,hd⟩ := tcpConnSetState_ok (s:=.established)
        (c:={ u.1 with sndWnd := win, sndWl1 := m.segSeq, sndWl2 := ack })
        (by dsimp only; rw [hkeeps.2]; decide)
      rw [hd,ok_bind]
      exact ⟨_,rfl,(hs'.keeps hkeeps.1).keeps ⟨rfl,rfl,rfl,rfl,rfl,rfl,rfl⟩,rfl,by simp⟩
    · obtain ⟨hk,hstate⟩ := tcpTxCtl_keeps u.1 (tcpSyn ||| tcpAck) o env.tx
      rw [hkeeps.2] at hstate
      split
      · exact ⟨_,rfl,(hs'.keeps hkeeps.1).keeps hk,by rw [hstate]; rfl,by rw [hstate]; simp⟩
      · obtain ⟨d,hd⟩ := tcpConnSetState_ok (s:=.synReceived)
          (c:=(tcpTxCtl u.1 (tcpSyn ||| tcpAck) o env.tx).2.1) (by rw [hstate]; decide)
        rw [hd,ok_bind]
        exact ⟨_,rfl,((hs'.keeps hkeeps.1).keeps hk).keeps ⟨rfl,rfl,rfl,rfl,rfl,rfl,rfl⟩,rfl,by simp⟩

theorem rxSynSent_cases (env : Env) (m : Mbuf) {len : BitVec 32} (hsyn : c.state = .synSent) :
    Quiet c (rxSynSent env c m ack win len mem optlen) ∨
    (∃ v, rxSynSent env c m ack win len mem optlen = .ok v ∧ FailedFrom c v.conn ∧
      has m.flags tcpRst = true) ∨
    has m.flags tcpSyn = true ∧
      (rxSynSent env c m ack win len mem optlen = .error .endless ∨
        ∃ v, rxSynSent env c m ack win len mem optlen = .ok v ∧ Synced c v.conn ∧
          finSeen v.conn.state = false ∧ v.conn.state ≠ .closed) := by
  have hquiet : ∀ d, Quiet c (pure ⟨c,false,true,d⟩) := fun d =>
    ⟨_,rfl,Keeps.refl _,Later.refl _⟩
  rw [rxSynSent]
  split
  · exact Or.inl (hquiet _)
  split
  · rename_i hrst
    obtain ⟨c',d,hfail,hfrom⟩ := tcpConnFail_ok c eConnReset
    simp only [Bool.and_eq_true] at hrst
    exact Or.inr (Or.inl ⟨_,by rw [hfail,ok_bind]; rfl,hfrom,hrst.1.1.2⟩)
  split
  · exact Or.inl (hquiet _)
  split
  · exact Or.inr (Or.inr ⟨‹_›,rxSyn_cases hsyn⟩)
  · exact Or.inl (hquiet _)

end Packet

/-! ### The whole handler -/

/-- The buffer of a packet once its header is pulled off. -/
def Packet.mbuf (p : Packet) : Mbuf := ⟨p.rest.drop (4*p.off-20),p.seq,p.seq+p.textLen,p.flags⟩

/-- The buffer as `tcp_rx_text` gets it. -/
def Packet.segment (p : Packet) : Mbuf := p.mbuf.withSpan

/-- The header checks of `tcp_rx_conn`. -/
structure Packet.Passes (p : Packet) (c : Conn) : Prop where
  header : 20 ≤ 4*p.off.val
  length : p.textLen.toNat ≤ p.rest.length
  mss : p.textLen.toNat ≤ c.rcvMss

/-- The segment also passes the test of `__tcp_rx_conn`. -/
structure Packet.Accepted (p : Packet) (c : Conn) : Prop where
  passes : p.Passes c
  acceptable : isAcceptable c.rx p.mbuf.spanWord p.seq = true

section Handler

variable {c : Conn} {env : Env} {p : Packet}

theorem Packet.Passes.textLen_eq (h : p.Passes c) :
    p.textLen.toNat = p.mbuf.data.length ∧ 4*p.off.val-20 ≤ p.rest.length := by
  have hheader := h.header
  have hlength := h.length
  have hoff := p.off.isLt
  have hrest := p.rest_le
  have hsub : p.textLen.toNat = (2^32 - 4*p.off.val + (20+p.rest.length)) % 2^32 := by
    have hmod : (20+p.rest.length) % 2^32 = 20+p.rest.length := Nat.mod_eq_of_lt (by omega)
    have hmod' : 4*p.off.val % 2^32 = 4*p.off.val := Nat.mod_eq_of_lt (by omega)
    rw [Packet.textLen,BitVec.toNat_sub,BitVec.toNat_ofNat,BitVec.toNat_ofNat,hmod,hmod']
  have hdata : p.mbuf.data.length = p.rest.length - (4*p.off.val-20) := List.length_drop
  omega

theorem Packet.Passes.spanWord_eq (h : p.Passes c) :
    (p.mbuf.spanWord.toNat : ℤ) = p.segment.span ∧ p.segment.span ≤ maxSpan := by
  have hlen := h.textLen_eq.1
  have hrest := p.rest_le
  have hle := h.length
  have hword : p.mbuf.spanWord = p.textLen + if has p.flags tcpFin then 1 else 0 := by
    change p.seq + p.textLen - p.seq + (if has p.flags tcpFin then 1 else 0) = _
    rw [BitVec.add_comm p.seq,BitVec.add_sub_cancel]
  have hspan : p.segment.span = p.mbuf.data.length + if has p.flags tcpFin then 1 else 0 := rfl
  rw [hword,hspan,maxSpan]
  cases has p.flags tcpFin with
  | false =>
    simp only [Bool.false_eq_true,if_false,BitVec.ofNat_eq_ofNat,BitVec.add_zero]
    omega
  | true =>
    simp only [if_true,BitVec.toNat_add,BitVec.ofNat_eq_ofNat,BitVec.toNat_ofNat]
    omega

theorem Packet.Passes.placed (h : p.Passes c) {a : ℤ} (ha : p.seq = serial a) :
    Placed a p.segment := by
  refine ⟨ha,?_⟩
  change p.seq + p.mbuf.spanWord = _
  rw [← h.spanWord_eq.1,← serial_add,ha,serial_self]

theorem tcpRxConn_passes (h : p.Passes c) :
    tcpRxConn env c p =
      if slowPath env c p.mbuf p.ack p.textLen then
        tcpRxConnSlow env c p.mbuf p.ack (p.window c) (optArea p.rest p.beyond) (4*p.off.val-20)
      else .ok (tcpRxConnFast c p.mbuf p.ack (p.window c) p.textLen) := by
  have hheader := h.header
  have hlength := h.length
  have hmss := h.mss
  rw [tcpRxConn,if_neg (by omega),if_neg (by omega)]
  dsimp only
  rw [mbufPull_ok h.textLen_eq.2,ok_bind]
  rfl

theorem tcpRxConn_drops (env : Env) (h : ¬p.Passes c) :
    ∃ m, tcpRxConn env c p = .ok (c,[.free [m]]) := by
  rw [tcpRxConn]
  split
  · exact ⟨_,rfl⟩
  split
  · exact ⟨_,rfl⟩
  · exact absurd ⟨by omega,by omega,by omega⟩ h

theorem Slow.done_keeps (v : Slow) (m : Mbuf) :
    Keeps v.conn (v.done m).1 ∧ (v.done m).1.state = v.conn.state := by
  rw [Slow.done]
  cases v.doAck <;> exact ⟨⟨rfl,rfl,rfl,rfl,rfl,rfl,rfl⟩,rfl⟩

theorem fastAck_keeps (c : Conn) (seq ack win : BitVec 32) :
    Keeps c (fastAck c seq ack win).1 ∧ (fastAck c seq ack win).1.state = c.state := by
  rw [fastAck]
  split
  · have hack := tcpConnAck_keeps { c with sndUna := ack, repAcks := 0 }
    generalize hu : (if c.sndUna ≠ ack then tcpConnAck { c with sndUna := ack, repAcks := 0 }
      else (c,[])) = u
    have hkeeps : Keeps c u.1 ∧ u.1.state = c.state := by
      rw [← hu]
      split
      · exact ⟨⟨hack.1.rx,hack.1.rxClosed,hack.1.rxExclusive,hack.1.winmax,hack.1.irs,
          hack.1.rcvMss,hack.1.err⟩,hack.2⟩
      · exact ⟨Keeps.refl _,rfl⟩
    dsimp only
    split
    · exact ⟨hkeeps.1.trans ⟨rfl,rfl,rfl,rfl,rfl,rfl,rfl⟩,hkeeps.2⟩
    · exact hkeeps
  · exact ⟨Keeps.refl c,rfl⟩

theorem tcpRxConnFast_keeps (c : Conn) (m : Mbuf) (ack win len : BitVec 32) :
    Keeps { c with rx := (tcpRxConnFast c m ack win len).1.rx } (tcpRxConnFast c m ack win len).1 ∧
      (tcpRxConnFast c m ack win len).1.state = c.state := by
  obtain ⟨hk,hst⟩ := fastAck_keeps c m.segSeq ack win
  rw [tcpRxConnFast]
  exact ⟨⟨rfl,hk.rxClosed,hk.rxExclusive,hk.winmax,hk.irs,hk.rcvMss,hk.err⟩,hst⟩

end Handler

/-- The effect of text: buffers that continue the queue of the reader, and what is left of
the out-of-order queue. -/
structure Taken (Q : Content) (c : Conn) (n e : ℤ) (qs : List Item) (x : Item) (c' : Conn) (n' : ℤ)
    (new : List Mbuf) (qs' : List Item) : Prop where
  inv : IngressInv Q c'.rx n' e qs'
  rxq : c'.rx.rxq = c.rx.rxq ++ new
  filled : Contiguous Q n new n'
  kept : ∀ y ∈ qs', y = x ∧ n < x.1 ∨ y ∈ qs
  nonempty : (∀ y ∈ qs, Item.last y ≤ e) → (n < x.1 → Item.last x ≤ e) → ∀ m ∈ new, 0 < m.span
  keeps : Keeps { c with rx := c'.rx } c'
  later : new.any Mbuf.isFin = false → Later c.state c'.state
  fin : new.any Mbuf.isFin = true → finSeen c'.state = true
  before : ¬(finSeen c.state = true ∨ c.state = .closed)
  past : c.state ≠ .synSent

/-- All that a packet can do. -/
inductive Outcome (Q : Content) (c : Conn) (n e : ℤ) (qs : List Item) (p : Packet) :
    Except Abort Conn → Prop
  | quiet {c' : Conn} (keeps : Keeps c c') (later : Later c.state c'.state) :
    Outcome Q c n e qs p (.ok c')
  | failed {c' : Conn} (flag : has p.flags tcpRst = true ∨ has p.flags tcpSyn = true)
    (failed : FailedFrom c c') : Outcome Q c n e qs p (.ok c')
  | synced {c' : Conn} (waits : c.state = .synSent) (flag : has p.flags tcpSyn = true)
    (synced : Synced c c') (fin : finSeen c'.state = false) (closed : c'.state ≠ .closed) :
    Outcome Q c n e qs p (.ok c')
  | endless (waits : c.state = .synSent) (flag : has p.flags tcpSyn = true) :
    Outcome Q c n e qs p (.error .endless)
  | taken {c' : Conn} {a n' : ℤ} {new : List Mbuf} {qs' : List Item} (seq : p.seq = serial a)
    (accepted : p.Accepted c) (below : a < e) (beyond : n < a + p.segment.span)
    (taken : Taken Q c n e qs (a,p.segment) c' n' new qs') : Outcome Q c n e qs p (.ok c')

/-- What a packet must bring: at every position where it would be taken its text has the
property, and a FIN that is to be cut off is in order. -/
def Packet.Brings (p : Packet) (Q : Content) (c : Conn) (n e : ℤ) : Prop :=
  ∀ a, p.seq = serial a → a < e → n < a + p.segment.span → p.Accepted c →
    Q a p.segment.data p.segment.isFin ∧
      (p.segment.isFin = true → a + p.segment.span ≤ e ∨ a ≤ n ∧ FinClips Q)

section Outcomes

variable {Q : Content} {c : Conn} {n e : ℤ} {qs : List Item} {env : Env} {p : Packet}

theorem texts_outcome {res : Except Abort Slow} (hQ : Clippable Q) (h : IngressInv Q c.rx n e qs)
    (hpass : p.Passes c) (hp : p.Brings Q c n e)
    (hacc : isAcceptable c.rx p.mbuf.spanWord p.seq = true) (hpos : p.mbuf.spanWord > 0)
    (hbefore : ¬(finSeen c.state = true ∨ c.state = .closed)) (hpast : c.state ≠ .synSent)
    (ht : Texts c p.segment res) :
    Outcome Q c n e qs p ((fun v => (Slow.done v p.mbuf).1) <$> res) := by
  obtain ⟨hspan,hsmall⟩ := hpass.spanWord_eq
  have hpos' : 0 < p.mbuf.spanWord.toNat := BitVec.lt_def.mp hpos
  obtain ⟨a,ha,hbelow,hbeyond⟩ := isAcceptable_position h.at' hpos' (by omega) hacc
  rw [hspan] at hbeyond
  obtain ⟨hcontent,hfin⟩ := hp a ha hbelow hbeyond ⟨hpass,hacc⟩
  rcases tcpRxText_spec (x:=(a,p.segment)) hQ h (hpass.placed ha) hbelow hbeyond hsmall hcontent
    hfin with hnone | ⟨t,n',new,qs',hsome,hstep⟩
  · obtain ⟨v,hv,hk,hl⟩ := ht.left hnone
    obtain ⟨hk',hs⟩ := v.done_keeps p.mbuf
    rw [hv]
    exact .quiet (hk.trans hk') (by rw [hs]; exact hl)
  · have hwake : t.wake = true → t.rx.rxq ≠ [] := fun hw hempty => by
      rw [hstep.rxq,List.append_eq_nil_iff] at hempty
      exact hstep.wake hw hempty.2
    obtain ⟨v,hv,hk,hl,hf⟩ := ht.taken t hsome hwake
    obtain ⟨hk',hs⟩ := v.done_keeps p.mbuf
    have hrx : (v.done p.mbuf).1.rx = t.rx := hk'.rx.trans hk.rx
    rw [hv]
    refine .taken ha ⟨hpass,hacc⟩ hbelow hbeyond ⟨by rw [hrx]; exact hstep.inv,by rw [hrx,hstep.rxq],
      hstep.filled,hstep.kept,hstep.nonempty,?_,?_,?_,hbefore,hpast⟩
    · rw [hrx]
      exact hk.trans hk'
    · rw [hs,← hstep.fin]
      exact hl
    · rw [hs,← hstep.fin]
      exact hf

theorem slow_outcome (hQ : Clippable Q) (h : IngressInv Q c.rx n e qs) (hpass : p.Passes c)
    (hp : p.Brings Q c n e) (win : BitVec 32) (mem : ℕ → UInt8) (optlen : ℕ) :
    Outcome Q c n e qs p
      (Prod.fst <$> tcpRxConnSlow env c p.mbuf p.ack win mem optlen) := by
  have hdone : Prod.fst <$> tcpRxConnSlow env c p.mbuf p.ack win mem optlen =
      (fun v => (Slow.done v p.mbuf).1) <$> rxSlow env c p.mbuf p.ack win mem optlen := by
    rw [tcpRxConnSlow]
    cases rxSlow env c p.mbuf p.ack win mem optlen <;> rfl
  have hquiet : ∀ {res}, Quiet c res → Outcome Q c n e qs p
      ((fun v => (Slow.done v p.mbuf).1) <$> res) := by
    rintro res ⟨v,rfl,hk,hl⟩
    obtain ⟨hk',hs⟩ := v.done_keeps p.mbuf
    exact .quiet (hk.trans hk') (by rw [hs]; exact hl)
  have hfailed : ∀ {v : Slow}, FailedFrom c v.conn → FailedFrom c (v.done p.mbuf).1 := by
    intro v hf
    obtain ⟨hk,hs⟩ := v.done_keeps p.mbuf
    exact hf.keeps hk hs
  rw [hdone]
  by_cases hsyn : c.state = .synSent
  · have hslow : rxSlow env c p.mbuf p.ack win mem optlen =
        rxSynSent env c p.mbuf p.ack win p.mbuf.spanWord mem optlen := by
      rw [rxSlow,if_neg (by rw [hsyn]; decide),if_pos hsyn]
    rw [hslow]
    rcases rxSynSent_cases env p.mbuf hsyn with
      hq | ⟨v,hv,hf,hflag⟩ | ⟨hflag,hend | ⟨v,hv,hs,hfin,hclosed⟩⟩
    · exact hquiet hq
    · rw [hv]
      exact .failed (Or.inl hflag) (hfailed hf)
    · rw [hend]
      exact .endless hsyn hflag
    · obtain ⟨hk,hst⟩ := v.done_keeps p.mbuf
      rw [hv]
      exact .synced hsyn hflag (hs.keeps hk) (by rw [hst]; exact hfin) (by rw [hst]; exact hclosed)
  · rcases rxSlow_cases env p.mbuf hsyn with
      ⟨v,hv,hf,hflag⟩ | hq | ⟨⟨hacc,hpos⟩,hbefore,ht⟩
    · rw [hv]
      exact .failed hflag (hfailed hf)
    · exact hquiet hq
    · exact texts_outcome hQ h hpass hp hacc hpos hbefore hsyn ht

end Outcomes

/-! ### The fast path -/

/-- What the guard says about a segment. -/
structure Guarded (env : Env) (c : Conn) (p : Packet) : Prop where
  passes : p.Passes c
  flags : has p.flags tcpSlowpathFlags = false
  text : p.textLen ≠ 0
  ack : wrapsGt p.ack env.sndNxt = false
  state : c.state = .established
  room : tcpIsSndFull c = false
  seq : p.seq = c.rx.rcvNxt
  ooo : c.rx.rxqOoo = []
  window : p.textLen ≤ c.rx.rcvWnd

section Fast

variable {Q : Content} {c : Conn} {n e : ℤ} {qs : List Item} {env : Env} {p : Packet}

theorem guarded (hpass : p.Passes c) (h : slowPath env c p.mbuf p.ack p.textLen = false) :
    Guarded env c p := by
  simp only [slowPath,Bool.or_eq_false_iff,decide_eq_false_iff_not,ne_eq,not_not,
    Bool.not_eq_false',List.isEmpty_iff] at h
  obtain ⟨⟨⟨⟨⟨⟨⟨hflags,hlen⟩,hack⟩,hest⟩,hroom⟩,hseq⟩,hooo⟩,hwnd⟩ := h
  exact ⟨hpass,hflags,hlen,hack,hest,hroom,hseq,hooo,BitVec.not_lt.mp hwnd⟩

theorem Guarded.no_fin (h : Guarded env c p) :
    has p.flags tcpFin = false ∧ has p.flags tcpRst = false :=
  ⟨has_false_mono (by decide) h.flags,has_false_mono (by decide) h.flags⟩

theorem Guarded.spanWord_eq (h : Guarded env c p) : p.mbuf.spanWord = p.textLen := by
  have hfin : has p.mbuf.flags tcpFin = false := h.no_fin.1
  change p.seq + p.textLen - p.seq + (if has p.mbuf.flags tcpFin then 1 else 0) = _
  rw [hfin,BitVec.add_comm p.seq,BitVec.add_sub_cancel]
  exact BitVec.add_zero _

theorem Guarded.length (h : Guarded env c p) :
    0 < p.textLen.toNat ∧ p.textLen.toNat ≤ 65515 ∧ p.textLen.toNat ≤ c.rx.rcvWnd.toNat := by
  have hrest := p.rest_le
  have hlen := h.passes.length
  have hpos : p.textLen.toNat ≠ 0 := fun h0 => h.text (BitVec.eq_of_toNat_eq h0)
  exact ⟨by omega,by omega,BitVec.le_def.mp h.window⟩

/-- The tests for the fast path leave the next segment, all of it in the window, while
nothing is out of order. -/
structure FastSegment (c : Conn) (p : Packet) (n e : ℤ) : Prop where
  seq : p.seq = serial n
  pos : 0 < p.segment.span
  room : n + p.segment.span ≤ e
  text : p.textLen = serial p.segment.span
  mbuf : p.mbuf = p.segment
  isFin : p.segment.isFin = false
  ooo : c.rx.rxqOoo = []
  state : c.state = .established

theorem Guarded.fastSegment (h : Guarded env c p) (hat : c.rx.At n e) : FastSegment c p n e := by
  have hword := h.spanWord_eq
  obtain ⟨hspan,-⟩ := h.passes.spanWord_eq
  rw [hword] at hspan
  have hne := hat.le
  have hb := hat.bounded
  unfold maxWindow at hb
  obtain ⟨hpos,-,hwnd⟩ := h.length
  rw [hat.wnd,serial_toNat (by omega) (by omega)] at hwnd
  exact {
    seq := h.seq.trans hat.nxt
    pos := by omega
    room := by omega
    text := by rw [← hspan,serial_self]
    mbuf := by
      change p.mbuf = ({ p.mbuf with segEnd := p.seq + p.mbuf.spanWord } : Mbuf)
      rw [hword]
      rfl
    isFin := h.no_fin.1
    ooo := h.ooo
    state := h.state }

theorem FastSegment.acceptable (hf : FastSegment c p n e) (hat : c.rx.At n e) (hpass : p.Passes c) :
    isAcceptable c.rx p.mbuf.spanWord p.seq = true := by
  have hpos := hf.pos
  have hroom := hf.room
  have hb := hat.bounded
  unfold maxWindow at hb
  have hlen : p.mbuf.spanWord ≠ 0 := fun h0 => by
    have := hpass.spanWord_eq.1
    rw [h0] at this
    simp at this
    omega
  have hopen : c.rx.rcvWnd ≠ 0 := fun h0 => by
    have := hat.window_zero.mp h0
    omega
  rw [isAcceptable,if_neg (fun hc => hlen hc.1),if_neg (fun hc => hlen hc.1),
    if_neg (fun hc => hopen hc.2),hf.seq,hat.edge,hat.nxt,
    (wrapsLte_serial (by omega) (by omega)).mpr (Int.le_refl n),
    (wrapsLt_serial (by omega) (by omega)).mpr (show n < e by omega)]
  rfl

theorem FastSegment.rx (hf : FastSegment c p n e) (hat : c.rx.At n e) (hpass : p.Passes c)
    (win : BitVec 32) : (tcpRxConnFast c p.mbuf p.ack win p.textLen).1.rx =
      ⟨serial (n + p.segment.span),serial (e - (n + p.segment.span)),c.rx.rxq ++ [p.segment],
        c.rx.rxqOoo,c.rx.rxqOooLen⟩ := by
  obtain ⟨hk,-⟩ := fastAck_keeps c p.mbuf.segSeq p.ack win
  have hwnd : c.rx.rcvWnd - p.textLen = serial (e - (n + p.segment.span)) := by
    rw [hat.wnd,hf.text,serial_sub,show e - n - p.segment.span = e - (n + p.segment.span) by omega]
  rw [← hwnd,← (hpass.placed hf.seq).last,← hf.mbuf]
  simp only [tcpRxConnFast,hk.rx]

theorem fast_outcome (h : IngressInv Q c.rx n e qs) (hpass : p.Passes c) (hp : p.Brings Q c n e)
    (hfast : slowPath env c p.mbuf p.ack p.textLen = false) (win : BitVec 32) :
    Outcome Q c n e qs p (.ok (tcpRxConnFast c p.mbuf p.ack win p.textLen).1) := by
  have hat := h.at'
  have hf := (guarded hpass hfast).fastSegment hat
  have hpos := hf.pos
  have hroom := hf.room
  have hb := hat.bounded
  have hacc : p.Accepted c := ⟨hpass,hf.acceptable hat hpass⟩
  obtain ⟨hcontent,-⟩ := hp n hf.seq (by omega) (by omega) hacc
  have hqs : qs = [] := by
    rw [← List.map_eq_nil_iff,← h.queue]
    exact hf.ooo
  obtain ⟨hk,hst⟩ := tcpRxConnFast_keeps c p.mbuf p.ack win p.textLen
  have hrx := hf.rx hat hpass win
  have htaken : Taken Q c n e qs (n,p.segment) (tcpRxConnFast c p.mbuf p.ack win p.textLen).1
      (n+p.segment.span) [p.segment] qs := {
    inv := ⟨by rw [hrx]; exact ⟨rfl,rfl,hroom,by omega⟩,by rw [hrx]; exact h.queue,h.sorted,
      by simp [hqs]⟩
    rxq := by rw [hrx]
    filled := ⟨⟨hpass.placed hf.seq,hcontent⟩,rfl⟩
    kept := fun y hy => Or.inr hy
    nonempty := fun _ _ m hm => by rw [List.mem_singleton.mp hm]; exact hpos
    keeps := hk
    later := fun _ => by
      rw [hst]
      exact Later.refl _
    fin := fun hany => by simp [hf.isFin] at hany
    before := by rw [hf.state]; decide
    past := by rw [hf.state]; decide }
  exact .taken hf.seq hacc (by omega) (by omega) htaken

/-- What a packet does to a connection whose queues hold what they should. -/
theorem tcpRxConn_outcome (env : Env) (hQ : Clippable Q) (h : IngressInv Q c.rx n e qs)
    (hp : p.Brings Q c n e) : Outcome Q c n e qs p (Prod.fst <$> tcpRxConn env c p) := by
  by_cases hpass : p.Passes c
  · rw [tcpRxConn_passes hpass]
    cases hslow : slowPath env c p.mbuf p.ack p.textLen with
    | true => exact slow_outcome hQ h hpass hp _ _ _
    | false => exact fast_outcome h hpass hp hslow _
  · obtain ⟨_,hd⟩ := tcpRxConn_drops env hpass
    rw [hd]
    exact .quiet (Keeps.refl c) (Later.refl _)

end Fast

end Vessel.Tcp
