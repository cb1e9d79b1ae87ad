import Vessel.TcpRun

/-! The fast path of `tcp_rx_conn` beside `__tcp_rx_conn`, on the segments that the guard of
the fast path lets through. -/
namespace Vessel.Tcp

open Serial

/-- The fields that both paths are compared on. -/
def Conn.visible (c : Conn) :=
  (c.rx.rcvNxt,c.rx.rcvWnd,c.rx.rxq,c.sndUna,c.sndWnd,c.sndWl1,c.sndWl2,c.txq,c.state)

/-- The part of them that belongs to the sending side, with the state. -/
def Conn.sending (c : Conn) := (c.sndUna,c.sndWnd,c.sndWl1,c.sndWl2,c.txq,c.state)

section Guarded

variable {env : Env} {c : Conn} {p : Packet}

/-- `is_acceptable` compares with signed differences, so a window of more than half the circle
fails. -/
theorem Guarded.acceptable_iff (h : Guarded env c p) :
    isAcceptable c.rx p.textLen p.seq = true ↔ c.rx.rcvWnd.toNat < 2^31 + p.textLen.toNat := by
  obtain ⟨hpos,hsmall,hfits⟩ := h.length
  have hwnd := c.rx.rcvWnd.isLt
  have hopen : c.rx.rcvWnd ≠ 0 := fun h0 => by
    rw [h0] at hfits
    simp at hfits
    omega
  have hedge : c.rx.rcvNxt + c.rx.rcvWnd = serial (c.rx.rcvNxt.toNat + c.rx.rcvWnd.toNat) := by
    rw [← serial_add,serial_self,serial_self]
  have hlast : c.rx.rcvNxt + p.textLen - 1 = serial (c.rx.rcvNxt.toNat + p.textLen.toNat - 1) := by
    rw [← serial_sub,← serial_add,serial_self,serial_self]
    rfl
  rw [isAcceptable,if_neg (fun hc => h.text hc.1),if_neg (fun hc => h.text hc.1),
    if_neg (fun hc => hopen hc.2),h.seq,hlast,hedge]
  by_cases hin : c.rx.rcvWnd.toNat < 2^31 + p.textLen.toNat
  · have hlo := (wrapsLte_serial (x:=c.rx.rcvNxt.toNat)
      (y:=c.rx.rcvNxt.toNat + p.textLen.toNat - 1) (by omega) (by omega)).mpr (by omega)
    have hhi := (wrapsLt_serial (x:=c.rx.rcvNxt.toNat + p.textLen.toNat - 1)
      (y:=c.rx.rcvNxt.toNat + c.rx.rcvWnd.toNat) (by omega) (by omega)).mpr (by omega)
    rw [serial_self] at hlo
    rw [hlo,hhi]
    exact iff_of_true (by simp) hin
  · have hfirst := wrapsLt_serial_far (x:=c.rx.rcvNxt.toNat)
      (y:=c.rx.rcvNxt.toNat + c.rx.rcvWnd.toNat) (by omega) (by omega)
    have hlast := wrapsLt_serial_far (x:=c.rx.rcvNxt.toNat + p.textLen.toNat - 1)
      (y:=c.rx.rcvNxt.toNat + c.rx.rcvWnd.toNat) (by omega) (by omega)
    rw [serial_self] at hfirst
    rw [hfirst,hlast]
    exact iff_of_false (by simp) hin

theorem Guarded.rxText (h : Guarded env c p) (hacc : c.rx.rcvWnd.toNat < 2^31 + p.textLen.toNat) :
    ∃ t, tcpRxText c.rx p.mbuf = .ok (some t) ∧ t.rx = { c.rx with
        rcvNxt := p.mbuf.segEnd
        rcvWnd := c.rx.rcvWnd - p.textLen
        rxq := c.rx.rxq ++ [p.mbuf] } ∧ t.fin = false := by
  obtain ⟨hpos,hsmall,hfits⟩ := h.length
  have hwnd := c.rx.rcvWnd.isLt
  have hopen : ¬c.rx.rcvWnd = 0 := fun h0 => by
    rw [h0] at hfits
    simp at hfits
    omega
  have hseq : p.mbuf.segSeq = c.rx.rcvNxt := h.seq
  have hend : p.mbuf.segEnd = serial (c.rx.rcvNxt.toNat + p.textLen.toNat) := by
    change p.seq + p.textLen = _
    rw [h.seq,← serial_add,serial_self,serial_self]
  have hedge : c.rx.rcvNxt + c.rx.rcvWnd = serial (c.rx.rcvNxt.toNat + c.rx.rcvWnd.toNat) := by
    rw [← serial_add,serial_self,serial_self]
  have hspan : p.mbuf.segEnd - p.mbuf.segSeq = p.textLen := by
    change p.seq + p.textLen - p.seq = _
    rw [BitVec.add_comm,BitVec.add_sub_cancel]
  have hlte : wrapsLte p.mbuf.segSeq c.rx.rcvNxt = true := by
    rw [hseq,wrapsLte,BitVec.sub_self]
    rfl
  have hgt : wrapsGt p.mbuf.segEnd c.rx.rcvNxt = true := by
    have := (wrapsGt_serial (x:=c.rx.rcvNxt.toNat + p.textLen.toNat) (y:=c.rx.rcvNxt.toNat)
      (by omega) (by omega)).mpr (by omega)
    rwa [serial_self,← hend] at this
  have hhead : clipHead c.rx p.mbuf = .ok p.mbuf := by
    rw [clipHead,hseq,wrapsLt,BitVec.sub_self]
    rfl
  have htail : clipTail c.rx p.mbuf = .ok p.mbuf := by
    have hno : ¬wrapsLt (c.rx.rcvNxt + c.rx.rcvWnd) p.mbuf.segEnd = true := by
      rw [hedge,hend,wrapsLt_serial (by omega) (by omega)]
      omega
    rw [clipTail,if_neg hno]
    rfl
  have happ : tcpRxAppendText c.rx p.mbuf = .ok { c.rx with
      rcvNxt := p.mbuf.segEnd
      rcvWnd := c.rx.rcvWnd - p.textLen
      rxq := c.rx.rxq ++ [p.mbuf] } := by
    simp only [tcpRxAppendText,assertThat_true hlte,assertThat_true hgt,ok_bind,hhead,htail,hspan,
      assertThat_true (decide_eq_true h.window),ok_pure]
  have hfin : has p.mbuf.flags tcpFin = false := h.no_fin.1
  rw [tcpRxText,if_neg hopen,if_pos hlte,happ,ok_bind,drainQueue]
  dsimp only
  rw [h.ooo]
  refine ⟨_,rfl,?_,?_⟩
  · simp only [← h.ooo]
  · change (_ && has p.mbuf.flags tcpFin) = false
    rw [hfin,Bool.and_false]

theorem dupAck_sending (c : Conn) (ack len : BitVec 32) (same updated : Bool) :
    (dupAck c ack len same updated).1.sending = c.sending := by
  unfold dupAck
  split
  · dsimp only
    split
    · split <;> rfl
    · rfl
  · split <;> rfl

/-- The connection after the acknowledgment on the slow path. -/
def slowAck (c : Conn) (seq ack win : BitVec 32) : Conn :=
  if wrapsLte c.sndUna ack then (ackUpdate c seq ack win).1 else c

theorem Guarded.rxAccepted (h : Guarded env c p)
    (hacc : c.rx.rcvWnd.toNat < 2^31 + p.textLen.toNat) (v : Slow) (hrx : v.conn.rx = c.rx)
    (hstate : v.conn.state = .established) (same updated : Bool) :
    ∃ v', Tcp.rxAccepted env v p.mbuf p.ack p.textLen same updated = .ok v' ∧
      v'.conn.rx = { c.rx with
        rcvNxt := p.mbuf.segEnd
        rcvWnd := c.rx.rcvWnd - p.textLen
        rxq := c.rx.rxq ++ [p.mbuf] } ∧
      v'.conn.sending = v.conn.sending := by
  obtain ⟨t,ht,htrx,htfin⟩ := h.rxText hacc
  obtain ⟨hk,hs⟩ := dupAck_keeps v.conn p.ack p.textLen same updated
  have hsend := dupAck_sending v.conn p.ack p.textLen same updated
  generalize hu : dupAck v.conn p.ack p.textLen same updated = u at hk hs hsend
  have hest : u.1.state = .established := hs.trans hstate
  have hfin : finAcked env u.1 = .ok (false,u.1,[]) := by
    simp [finAcked,hest]
  let v₁ : Slow := { v with conn := u.1, deferred := v.deferred ++ u.2 ++ [] }
  have hif : p.textLen > 0 ∧ takesText v₁.conn.state = true := by
    refine ⟨BitVec.lt_def.mpr h.length.1,?_⟩
    change takesText u.1.state = true
    rw [hest]
    rfl
  have ht' : tcpRxText v₁.conn.rx { p.mbuf with segEnd := p.mbuf.segSeq + p.textLen } =
      .ok (some t) := by
    change tcpRxText u.1.rx p.mbuf = _
    rw [hk.rx,hrx]
    exact ht
  have hrxq : (textDone v₁ (some t)).conn.rx.rxq = c.rx.rxq ++ [p.mbuf] := by
    change t.rx.rxq = _
    rw [htrx]
  have hseg : rxSegmentText v₁ p.mbuf p.textLen = .ok (textDone v₁ (some t),false) := by
    have hused : (!(some t).elim false Text.wake || !(textDone v₁ (some t)).doDrop) = true :=
      Bool.or_true _
    have hwake : (!(some t).elim false Text.wake ||
        !(textDone v₁ (some t)).conn.rx.rxq.isEmpty) = true := by
      rw [hrxq]
      simp
    rw [rxSegmentText,if_pos hif,ht',ok_bind]
    dsimp only
    rw [assertThat_true hwake,ok_bind,assertThat_true hused,ok_bind]
    change Except.ok (_,t.fin) = _
    rw [htfin]
  refine ⟨textDone v₁ (some t),?_,htrx,hsend⟩
  rw [Tcp.rxAccepted,hu]
  dsimp only
  rw [hfin,ok_bind]
  dsimp only
  rw [if_neg Bool.false_ne_true,hseg,ok_bind]
  rfl

theorem Guarded.rxAckUpdate (h : Guarded env c p) (v : Slow) (hv : v.conn = c) (win : BitVec 32) :
    ∃ d same updated, Tcp.rxAckUpdate env v p.mbuf p.ack win p.textLen true =
      Tcp.rxAccepted env { v with conn := slowAck c p.seq p.ack win, deferred := d } p.mbuf p.ack
        p.textLen same updated := by
  subst hv
  have hack := wrapsLte_of_not_wrapsGt h.ack
  have hno : ¬(!(wrapsLte v.conn.sndUna p.ack && wrapsLte p.ack env.sndNxt) &&
      wrapsGt p.ack env.sndNxt) = true := by
    simp [h.ack]
  rw [Tcp.rxAckUpdate,if_neg hno,hack,Bool.and_true]
  generalize hu : (if wrapsLte v.conn.sndUna p.ack = true then
    ackUpdate v.conn p.mbuf.segSeq p.ack win else (v.conn,false,false,[])) = u
  have hslow : slowAck v.conn p.seq p.ack win = u.1 := by
    rw [slowAck,← hu]
    split <;> rfl
  rw [hslow]
  exact ⟨_,u.2.1,u.2.2.1,rfl⟩

/-- The slow path does the same to the receive side, if it takes the segment. -/
theorem Guarded.slow (h : Guarded env c p) (hacc : c.rx.rcvWnd.toNat < 2^31 + p.textLen.toNat)
    (hack : has p.flags tcpAck = true) (hsyn : has p.flags tcpSyn = false) (win : BitVec 32)
    (mem : ℕ → UInt8) (optlen : ℕ) :
    ∃ c' d, tcpRxConnSlow env c p.mbuf p.ack win mem optlen = .ok (c',d) ∧
      c'.rx = { c.rx with
        rcvNxt := p.mbuf.segEnd
        rcvWnd := c.rx.rcvWnd - p.textLen
        rxq := c.rx.rxq ++ [p.mbuf] } ∧
      c'.sending = (slowAck c p.seq p.ack win).sending := by
  have hack' : has p.mbuf.flags tcpAck = true := hack
  have hrst : has p.mbuf.flags tcpRst = false := h.no_fin.2
  have hsyn' : has p.mbuf.flags tcpSyn = false := hsyn
  have hok : isAcceptable c.rx p.textLen p.mbuf.segSeq = true := h.acceptable_iff.mpr hacc
  have hest : establish c p.mbuf.segSeq p.ack win = .ok (c,[]) := by
    rw [establish,if_neg (by rw [h.state]; decide)]
    rfl
  have hslow : rxSlow env c p.mbuf p.ack win mem optlen =
      Tcp.rxAckUpdate env ⟨c,false,true,[]⟩ p.mbuf p.ack win p.textLen true := by
    rw [rxSlow,if_neg (by rw [h.state]; decide),if_neg (by rw [h.state]; decide),h.spanWord_eq,
      if_neg (by simp [hok]),if_neg (by simp [hrst]),if_neg (by simp [hsyn']),rxAck,
      if_neg (by simp [hack']),if_neg (by simp [h.state]),hest,ok_bind]
    rfl
  obtain ⟨d,same,updated,hupd⟩ := h.rxAckUpdate ⟨c,false,true,[]⟩ rfl win
  have hkeeps : (slowAck c p.seq p.ack win).rx = c.rx ∧
      (slowAck c p.seq p.ack win).state = .established := by
    rw [slowAck]
    split
    · obtain ⟨hk,hs⟩ := ackUpdate_keeps c p.seq p.ack win
      exact ⟨hk.rx,hs.trans h.state⟩
    · exact ⟨rfl,h.state⟩
  obtain ⟨v,hv,hrx,hsend⟩ := h.rxAccepted hacc
    ⟨slowAck c p.seq p.ack win,false,true,d⟩ hkeeps.1 hkeeps.2 same updated
  obtain ⟨hk,-⟩ := v.done_keeps p.mbuf
  have hdone : (v.done p.mbuf).1.sending = v.conn.sending := by
    rw [Slow.done]
    cases v.doAck <;> rfl
  refine ⟨(v.done p.mbuf).1,(v.done p.mbuf).2,?_,hk.rx.trans hrx,hdone.trans hsend⟩
  rw [tcpRxConnSlow,hslow,hupd,hv]
  rfl

/-- The send window from this segment. -/
def Conn.setWindow (c : Conn) (seq ack win : BitVec 32) : Conn :=
  { c with sndWnd := win, sndWl1 := seq, sndWl2 := ack }

section Acknowledgment

variable {seq ack win : BitVec 32}

theorem wrapsLte_self (a : BitVec 32) : wrapsLte a a = true := by
  rw [wrapsLte,BitVec.sub_self]
  rfl

theorem slowAck_repeated (c : Conn) : slowAck c seq c.sndUna win =
    if windowDue c seq c.sndUna && c.sndWnd ≤ win then c.setWindow seq c.sndUna win else c := by
  simp only [slowAck,ackUpdate,wrapsLte_self,decide_true,if_true,Bool.not_true,Bool.false_or]
  split <;> rfl

theorem fastAck_repeated (c : Conn) : (fastAck c seq c.sndUna win).1.sending =
    (if windowDue c seq c.sndUna then c.setWindow seq c.sndUna win else c).sending := by
  simp only [fastAck,wrapsLte_self,ne_eq,not_true_eq_false,if_true,if_false]
  split <;> rfl

theorem update_sending {a b : Conn} (h : a.sending = b.sending) :
    (if windowDue a seq ack then a.setWindow seq ack win else a).sending =
      (if windowDue b seq ack then b.setWindow seq ack win else b).sending := by
  simp only [Conn.sending,Prod.mk.injEq] at h
  obtain ⟨huna,hwnd,hwl1,hwl2,htxq,hstate⟩ := h
  rw [windowDue,windowDue,hwl1,hwl2]
  split
  · simp only [Conn.sending,Conn.setWindow,huna,htxq,hstate]
  · simp only [Conn.sending,huna,hwnd,hwl1,hwl2,htxq,hstate]

theorem slowAck_new (h : c.sndUna ≠ ack) :
    (slowAck c seq ack win).sending = (fastAck c seq ack win).1.sending := by
  cases hlte : wrapsLte c.sndUna ack with
  | false => simp [slowAck,fastAck,hlte]
  | true =>
    have hack : (tcpConnAck { c with sndUna := ack }).1.sending =
        (tcpConnAck { c with sndUna := ack, repAcks := 0 }).1.sending := by
      simp only [tcpConnAck]
      split <;> rfl
    have hslow : (slowAck c seq ack win).sending =
        (if windowDue (tcpConnAck { c with sndUna := ack }).1 seq ack then
          (tcpConnAck { c with sndUna := ack }).1.setWindow seq ack win
          else (tcpConnAck { c with sndUna := ack }).1).sending := by
      simp only [slowAck,ackUpdate,hlte,h,decide_false,if_true,Bool.false_eq_true,if_false,
        Bool.not_false,Bool.true_or,Bool.and_true]
      split <;> rfl
    have hfast : (fastAck c seq ack win).1.sending =
        (if windowDue (tcpConnAck { c with sndUna := ack, repAcks := 0 }).1 seq ack then
          (tcpConnAck { c with sndUna := ack, repAcks := 0 }).1.setWindow seq ack win
          else (tcpConnAck { c with sndUna := ack, repAcks := 0 }).1).sending := by
      simp only [fastAck,hlte,h,ne_eq,not_false_eq_true,if_true]
      split <;> rfl
    rw [hslow,hfast]
    exact update_sending hack

/-- Both paths agree on the sending side, but where a repeated acknowledgment comes with a
smaller window. -/
theorem slowAck_sending_iff (c : Conn) (seq ack win : BitVec 32) :
    (slowAck c seq ack win).sending = (fastAck c seq ack win).1.sending ↔
      ¬(c.sndUna = ack ∧ windowDue c seq ack = true ∧ win < c.sndWnd) := by
  by_cases hsame : c.sndUna = ack
  · subst hsame
    rw [slowAck_repeated,fastAck_repeated]
    cases hdue : windowDue c seq c.sndUna with
    | false => simp
    | true =>
      by_cases hwin : c.sndWnd ≤ win
      · simp [hwin,BitVec.not_lt.mpr hwin]
      · have hlt := BitVec.not_le.mp hwin
        have hne : c.sndWnd ≠ win := fun heq => by
          rw [heq] at hlt
          exact BitVec.lt_irrefl _ hlt
        simp [hwin,hlt,Conn.sending,Conn.setWindow,hne]
  · simp [slowAck_new hsame,hsame]

end Acknowledgment

theorem tcpRxConnFast_visible (c : Conn) (m : Mbuf) (ack win len : BitVec 32) :
    (tcpRxConnFast c m ack win len).1.visible = (m.segEnd,c.rx.rcvWnd - len,c.rx.rxq ++ [m],
      (fastAck c m.segSeq ack win).1.sending) := by
  obtain ⟨hk,-⟩ := fastAck_keeps c m.segSeq ack win
  simp only [tcpRxConnFast,Conn.visible,Conn.sending,hk.rx]

theorem Guarded.moves (h : Guarded env c p) (win : BitVec 32) {c' : Conn}
    (hrx : c'.rx.rcvNxt = c.rx.rcvNxt) :
    c'.visible ≠ (tcpRxConnFast c p.mbuf p.ack win p.textLen).1.visible := by
  rw [tcpRxConnFast_visible]
  intro heq
  have hnxt : c.rx.rcvNxt = p.seq + p.textLen := hrx.symm.trans (congrArg Prod.fst heq)
  rw [h.seq] at hnxt
  have hzero : p.textLen = 0 := by bv_omega
  exact h.text hzero

/-- A segment that the slow path does not take as text. -/
theorem Guarded.slow_refuses (h : Guarded env c p) (win : BitVec 32) (mem : ℕ → UInt8) (optlen : ℕ)
    (hnot : ¬(has p.flags tcpAck = true ∧ has p.flags tcpSyn = false ∧
      c.rx.rcvWnd.toNat < 2^31 + p.textLen.toNat)) :
    ∃ c' d, tcpRxConnSlow env c p.mbuf p.ack win mem optlen = .ok (c',d) ∧
      (c'.rx.rcvNxt = c.rx.rcvNxt ∨ c'.state = .closed) := by
  have hrst : has p.mbuf.flags tcpRst = false := h.no_fin.2
  have hroom : (!tcpIsSndFull c) = true := by
    rw [h.room]
    rfl
  rw [tcpRxConnSlow,rxSlow,if_neg (by rw [h.state]; decide),if_neg (by rw [h.state]; decide),
    h.spanWord_eq]
  cases hacc : isAcceptable c.rx p.textLen p.mbuf.segSeq with
  | false =>
    rw [if_pos Bool.not_false,if_pos hroom]
    exact ⟨_,_,rfl,Or.inl (congrArg Ingress.rcvNxt (Slow.done_keeps _ p.mbuf).1.rx)⟩
  | true =>
    rw [if_neg (by simp),if_neg (by simp [hrst])]
    cases hsyn : has p.mbuf.flags tcpSyn with
    | true =>
      obtain ⟨c',d,hfail,hfrom⟩ := tcpConnFail_ok c eConnReset
      rw [if_pos rfl,hfail,ok_bind]
      exact ⟨_,_,rfl,Or.inr hfrom.state⟩
    | false =>
      have hack : has p.mbuf.flags tcpAck = false := by
        by_contra hack
        exact hnot ⟨Bool.not_eq_false _ ▸ hack,hsyn,h.acceptable_iff.mp hacc⟩
      rw [if_neg Bool.false_ne_true,rxAck,if_pos (by simp [hack])]
      exact ⟨_,_,rfl,Or.inl rfl⟩

end Guarded

/-- On a segment that the guard lets through, `__tcp_rx_conn` leaves what the fast path leaves
exactly if the segment is an acknowledgment without SYN, the window is not more than half the
circle, and no repeated acknowledgment makes the send window smaller. -/
theorem fastPath_agrees_iff (env : Env) (c : Conn) (p : Packet) (hpass : p.Passes c)
    (hguard : slowPath env c p.mbuf p.ack p.textLen = false) :
    (∃ c' d, tcpRxConnSlow env c p.mbuf p.ack (p.window c) (optArea p.rest p.beyond)
        (4*p.off.val-20) = .ok (c',d) ∧
      c'.visible = (tcpRxConnFast c p.mbuf p.ack (p.window c) p.textLen).1.visible) ↔
    (has p.flags tcpAck = true ∧ has p.flags tcpSyn = false ∧
      c.rx.rcvWnd.toNat < 2^31 + p.textLen.toNat) ∧
      ¬(c.sndUna = p.ack ∧ windowDue c p.seq p.ack = true ∧ p.window c < c.sndWnd) := by
  have h := guarded hpass hguard
  by_cases htakes : has p.flags tcpAck = true ∧ has p.flags tcpSyn = false ∧
      c.rx.rcvWnd.toNat < 2^31 + p.textLen.toNat
  · obtain ⟨hack,hsyn,hacc⟩ := htakes
    obtain ⟨c',d,hslow,hrx,hsend⟩ := h.slow hacc hack hsyn (p.window c)
      (optArea p.rest p.beyond) (4*p.off.val-20)
    have hvisible : c'.visible = (p.mbuf.segEnd,c.rx.rcvWnd - p.textLen,c.rx.rxq ++ [p.mbuf],
        (slowAck c p.seq p.ack (p.window c)).sending) := by
      change (c'.rx.rcvNxt,c'.rx.rcvWnd,c'.rx.rxq,c'.sending) = _
      rw [hrx,hsend]
    have hiff := slowAck_sending_iff c p.seq p.ack (p.window c)
    rw [← hiff,tcpRxConnFast_visible,hslow]
    refine ⟨fun ⟨c'',d'',heq,hv⟩ => ⟨⟨hack,hsyn,hacc⟩,?_⟩,fun hs => ⟨c',d,rfl,?_⟩⟩
    · obtain ⟨rfl,-⟩ := Prod.mk.inj (Except.ok.inj heq)
      rw [hvisible] at hv
      exact (Prod.mk.inj (Prod.mk.inj (Prod.mk.inj hv).2).2).2
    · rw [hvisible,hs.2]
      rfl
  · obtain ⟨c',d,hslow,hdiff⟩ := h.slow_refuses (p.window c) (optArea p.rest p.beyond)
      (4*p.off.val-20) htakes
    rw [hslow]
    refine ⟨fun ⟨c'',d'',heq,hv⟩ => ?_,fun hs => absurd hs.1 htakes⟩
    obtain ⟨rfl,-⟩ := Prod.mk.inj (Except.ok.inj heq)
    rcases hdiff with hsame | hclosed
    · exact absurd hv (h.moves (p.window c) hsame)
    · have hstate : (fastAck c p.mbuf.segSeq p.ack (p.window c)).1.state = .established :=
        (fastAck_keeps c p.mbuf.segSeq p.ack (p.window c)).2.trans h.state
      rw [tcpRxConnFast_visible] at hv
      simp only [Conn.visible,Conn.sending,Prod.mk.injEq,hclosed,hstate] at hv
      simp at hv

/-- Five bytes in order, with `flags`, an acknowledgment of all that was sent and `win`. -/
def fiveBytes (flags : Flags) (win : BitVec 16) : Packet :=
  ⟨1,1,win,⟨5,by decide⟩,flags,[1,2,3,4,5],fun _ => 0,by decide⟩

theorem fastPath_agrees_iff_regular : ∃ c' d, tcpRxConnSlow ⟨1,.sent⟩ (.opened 100)
      (fiveBytes tcpAck 1000).mbuf 1 1000 (optArea [1,2,3,4,5] fun _ => 0) 0 = .ok (c',d) ∧
    c'.visible = (tcpRxConnFast (.opened 100) (fiveBytes tcpAck 1000).mbuf 1 1000 5).1.visible :=
  (fastPath_agrees_iff ⟨1,.sent⟩ (.opened 100) (fiveBytes tcpAck 1000)
    ⟨by decide,by decide,by decide⟩ (by decide)).mpr ⟨⟨by decide,by decide,by decide⟩,by decide⟩

/-- The segment goes by the fast path, and `__tcp_rx_conn` would leave something else. -/
def FastDiffers (p : Packet) : Prop :=
  p.Passes (.opened 100) ∧ slowPath ⟨1,.sent⟩ (.opened 100) p.mbuf p.ack p.textLen = false ∧
    ¬∃ c' d, tcpRxConnSlow ⟨1,.sent⟩ (.opened 100) p.mbuf p.ack (p.window (.opened 100))
        (optArea p.rest p.beyond) (4*p.off.val-20) = .ok (c',d) ∧
      c'.visible = (tcpRxConnFast (.opened 100) p.mbuf p.ack (p.window (.opened 100))
        p.textLen).1.visible

/-- The fast path takes text without ACK and with SYN, and makes the send window smaller. -/
theorem fastPath_differs : FastDiffers (fiveBytes 0 1000) ∧
    FastDiffers (fiveBytes (tcpSyn ||| tcpAck) 1000) ∧ FastDiffers (fiveBytes tcpAck 500) := by
  -- the next sequence number and the send window tell the two states apart
  have hshow : ∀ p : Packet, p.Passes (.opened 100) →
      slowPath ⟨1,.sent⟩ (.opened 100) p.mbuf p.ack p.textLen = false →
      (tcpRxConnSlow ⟨1,.sent⟩ (.opened 100) p.mbuf p.ack (p.window (.opened 100))
        (optArea p.rest p.beyond) (4*p.off.val-20)).toOption.map
          (fun r => (r.1.rx.rcvNxt,r.1.sndWnd)) ≠
        some ((tcpRxConnFast (.opened 100) p.mbuf p.ack (p.window (.opened 100))
            p.textLen).1.rx.rcvNxt,
          (tcpRxConnFast (.opened 100) p.mbuf p.ack (p.window (.opened 100))
            p.textLen).1.sndWnd) → FastDiffers p := by
    refine fun p hpass hguard hne => ⟨hpass,hguard,fun ⟨c',d,heq,hv⟩ => hne ?_⟩
    have hnxt := congrArg (fun v => v.1) hv
    have hwnd := congrArg (fun v => v.2.2.2.2.1) hv
    simp only [Conn.visible] at hnxt hwnd
    rw [heq,← hnxt,← hwnd]
    rfl
  exact ⟨hshow _ ⟨by decide,by decide,by decide⟩ (by decide) (by decide +kernel),
    hshow _ ⟨by decide,by decide,by decide⟩ (by decide) (by decide +kernel),
    hshow _ ⟨by decide,by decide,by decide⟩ (by decide) (by decide +kernel)⟩

end Vessel.Tcp
