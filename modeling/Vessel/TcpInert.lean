import Vessel.TcpFast

/-! Segments that fail the acceptability test.  The slow path drops them, but one that comes
while the send window is full still has its acknowledgment processed. -/
namespace Vessel.Tcp

open Serial

/-- `pcb.state`, `rcv_nxt`, `rxq` and `rxq_ooo` are the same. -/
structure Inert (c c' : Conn) : Prop where
  state : c'.state = c.state
  rcvNxt : c'.rx.rcvNxt = c.rx.rcvNxt
  rxq : c'.rx.rxq = c.rx.rxq
  rxqOoo : c'.rx.rxqOoo = c.rx.rxqOoo

theorem Keeps.inert {c c' : Conn} (h : Keeps c c') (hs : c'.state = c.state) : Inert c c' :=
  ⟨hs,by rw [h.rx],by rw [h.rx],by rw [h.rx]⟩

/-- An acknowledgment in range that reaches a connection in `SYN_RECEIVED` by way of the full
send window. -/
structure Establishes (env : Env) (c : Conn) (p : Packet) : Prop where
  state : c.state = .synReceived
  full : tcpIsSndFull c = true
  ack : has p.flags tcpAck = true
  above : wrapsLte c.sndUna p.ack = true
  below : wrapsLte p.ack env.sndNxt = true

/-- The segment goes by the fast path, which compares its length with the window and not the
numbers with each other. -/
structure Overruns (env : Env) (c : Conn) (p : Packet) : Prop where
  fast : slowPath env c p.mbuf p.ack p.textLen = false
  window : 2^31 + p.textLen.toNat ≤ c.rx.rcvWnd.toNat

section Unacceptable

variable {env : Env} {c : Conn} {p : Packet} {m : Mbuf} {ack win len : BitVec 32}

variable (env m ack win len) in
theorem rxAckUpdate_unacceptable (v : Slow) :
    ∃ v', rxAckUpdate env v m ack win len false = .ok v' ∧ Keeps v.conn v'.conn ∧
      v'.conn.state = v.conn.state := by
  simp only [rxAckUpdate]
  split
  · exact ⟨_,rfl,Keeps.refl _,rfl⟩
  simp only [Bool.not_false,if_true]
  split
  · exact ⟨_,rfl,ackUpdate_keeps ..⟩
  · exact ⟨_,rfl,Keeps.refl _,rfl⟩

variable (env m ack win len) in
theorem rxAck_unacceptable (v : Slow) :
    ∃ v', rxAck env v m ack win len false = .ok v' ∧ Keeps v.conn v'.conn ∧
      v'.conn.state =
        if v.conn.state = .synReceived ∧ has m.flags tcpAck = true ∧
          (wrapsLte v.conn.sndUna ack && wrapsLte ack env.sndNxt) = true then .established
        else v.conn.state := by
  rw [rxAck]
  dsimp only
  cases hack : has m.flags tcpAck with
  | false => exact ⟨v,rfl,Keeps.refl _,by simp⟩
  | true =>
    by_cases hsyn : v.conn.state = .synReceived
    · cases hin : wrapsLte v.conn.sndUna ack && wrapsLte ack env.sndNxt with
      | false => exact ⟨{ v with doDrop := true, deferred := _ },by simp [hsyn]; rfl,Keeps.refl _,by simp⟩
      | true =>
        have hlt : v.conn.state = .closed ∨ v.conn.state.ctorIdx < State.established.ctorIdx := by
          rw [hsyn]
          decide
        obtain ⟨d,hd⟩ := tcpConnSetState_ok
          (c:={ v.conn with sndWnd := win, sndWl1 := m.segSeq, sndWl2 := ack }) hlt
        obtain ⟨v',hv',hk,hs⟩ := rxAckUpdate_unacceptable env m ack win len
          { v with
            conn := { v.conn with
              sndWnd := win, sndWl1 := m.segSeq, sndWl2 := ack, state := .established }
            deferred := v.deferred ++ d }
        refine ⟨v',?_,⟨hk.1,hk.2,hk.3,hk.4,hk.5,hk.6,hk.7⟩,?_⟩
        · simp only [Bool.not_true,Bool.false_eq_true,if_false,not_true_eq_false,and_false]
          rw [establish,if_pos hsyn,hd]
          exact hv'
        · rw [hs,if_pos ⟨hsyn,rfl,rfl⟩]
    · obtain ⟨v',hv',hk,hs⟩ := rxAckUpdate_unacceptable env m ack win len
        { v with deferred := v.deferred ++ [] }
      refine ⟨v',?_,hk,?_⟩
      · rw [establish,if_neg hsyn]
        simp only [Bool.not_true,Bool.false_eq_true,if_false,hsyn,false_and]
        exact hv'
      · rw [hs,if_neg fun h => hsyn h.1]

variable (env) in
/-- The slow path leaves the receive side alone, and the state but for one case. -/
theorem rxSlow_unacceptable (hsyn : c.state ≠ .synSent)
    (hun : isAcceptable c.rx p.mbuf.spanWord p.seq = false) (win : BitVec 32) (mem : ℕ → UInt8)
    (optlen : ℕ) : ∃ v, rxSlow env c p.mbuf p.ack win mem optlen = .ok v ∧ Keeps c v.conn ∧
      ((v.conn.state = c.state ∧ ¬Establishes env c p) ∨
        (v.conn.state = .established ∧ Establishes env c p)) := by
  have hun' : isAcceptable c.rx p.mbuf.spanWord p.mbuf.segSeq = false := hun
  rw [rxSlow]
  by_cases hclosed : c.state = .closed
  · rw [if_pos hclosed]
    refine ⟨_,rfl,Keeps.refl c,Or.inl ⟨rfl,fun h => ?_⟩⟩
    rw [h.state] at hclosed
    contradiction
  rw [if_neg hclosed,if_neg hsyn,hun']
  cases hfull : tcpIsSndFull c with
  | false =>
    refine ⟨_,rfl,Keeps.refl c,Or.inl ⟨rfl,fun h => ?_⟩⟩
    rw [h.full] at hfull
    contradiction
  | true =>
    obtain ⟨v',hv',hk,hs⟩ := rxAck_unacceptable env p.mbuf p.ack win p.mbuf.spanWord
      ⟨c,!has p.mbuf.flags tcpRst,true,[]⟩
    refine ⟨v',hv',hk,?_⟩
    by_cases hest : c.state = .synReceived ∧ has p.mbuf.flags tcpAck = true ∧
        (wrapsLte c.sndUna p.ack && wrapsLte p.ack env.sndNxt) = true
    · rw [if_pos hest] at hs
      obtain ⟨hrecv,hack,hin⟩ := hest
      obtain ⟨habove,hbelow⟩ := Bool.and_eq_true_iff.mp hin
      exact Or.inr ⟨hs,hrecv,hfull,hack,habove,hbelow⟩
    · rw [if_neg hest] at hs
      exact Or.inl ⟨hs,fun h => hest ⟨h.state,h.ack,Bool.and_eq_true_iff.mpr ⟨h.above,h.below⟩⟩⟩

end Unacceptable

/-- A segment that fails the acceptability test changes nothing, unless it establishes a
connection in `SYN_RECEIVED` whose send window is full, or goes by the fast path of a
connection whose window is wider than half the circle. -/
theorem unacceptable_inert_iff (env : Env) (c : Conn) (p : Packet) (hsyn : c.state ≠ .synSent)
    (hun : isAcceptable c.rx p.mbuf.spanWord p.seq = false) :
    (∃ c' d, tcpRxConn env c p = .ok (c',d) ∧ Inert c c') ↔
      ¬(p.Passes c ∧ (Establishes env c p ∨ Overruns env c p)) := by
  by_cases hpass : p.Passes c
  · rw [tcpRxConn_passes hpass]
    cases hslow : slowPath env c p.mbuf p.ack p.textLen with
    | true =>
      obtain ⟨v,hv,hk,hcases⟩ := rxSlow_unacceptable env hsyn hun (p.window c)
        (optArea p.rest p.beyond) (4*p.off.val-20)
      obtain ⟨hk',hs'⟩ := v.done_keeps p.mbuf
      have hrun : tcpRxConnSlow env c p.mbuf p.ack (p.window c) (optArea p.rest p.beyond)
          (4*p.off.val-20) = .ok (v.done p.mbuf) := by rw [tcpRxConnSlow,hv]; rfl
      have hover : ¬Overruns env c p := fun h => by
        rw [h.fast] at hslow
        contradiction
      rw [if_pos rfl,hrun]
      rcases hcases with ⟨hs,hno⟩ | ⟨hs,hest⟩
      · refine iff_of_true ⟨_,_,rfl,(hk.trans hk').inert (hs'.trans hs)⟩ ?_
        rintro ⟨-,h | h⟩
        · exact hno h
        · exact hover h
      · refine iff_of_false ?_ (not_not_intro ⟨hpass,Or.inl hest⟩)
        rintro ⟨c',d,heq,hinert⟩
        obtain rfl : (v.done p.mbuf).1 = c' := congrArg Prod.fst (Except.ok.inj heq)
        rw [hinert.state,hest.state] at hs'
        rw [← hs'] at hs
        contradiction
    | false =>
      have hg := guarded hpass hslow
      have hwide : 2^31 + p.textLen.toNat ≤ c.rx.rcvWnd.toNat := by
        rw [hg.spanWord_eq] at hun
        by_contra hlt
        rw [hg.acceptable_iff.mpr (not_le.mp hlt)] at hun
        contradiction
      refine iff_of_false ?_ (not_not_intro ⟨hpass,Or.inr ⟨hslow,hwide⟩⟩)
      rintro ⟨c',d,heq,hinert⟩
      -- the fast path moves `rcv_nxt` by the length of the text
      obtain rfl : (tcpRxConnFast c p.mbuf p.ack (p.window c) p.textLen).1 = c' :=
        congrArg Prod.fst (Except.ok.inj heq)
      have hnxt : p.seq + p.textLen = c.rx.rcvNxt := hinert.rcvNxt
      rw [hg.seq] at hnxt
      exact hg.text (by bv_omega)
  · obtain ⟨_,hd⟩ := tcpRxConn_drops env hpass
    rw [hd]
    exact iff_of_true ⟨c,_,rfl,rfl,rfl,rfl,rfl⟩ fun h => hpass h.1

/-- An empty segment far beyond the window, with an acknowledgment of the first number. -/
def strayAck (flags : Flags) : Packet :=
  ⟨5000,1,1000,⟨5,five_lt_sixteen⟩,flags,[],fun _ => 0,no_text_le⟩

theorem unacceptable_inert_iff_established :
    ∃ c' d, tcpRxConn ⟨1,.sent⟩ (.opened 100) (strayAck (tcpRst ||| tcpAck)) = .ok (c',d) ∧
      Inert (.opened 100) c' := by
  refine (unacceptable_inert_iff ⟨1,.sent⟩ (.opened 100) (strayAck (tcpRst ||| tcpAck)) (by decide)
    (by decide)).mpr ?_
  rintro ⟨-,h | h⟩
  · exact absurd h.state (by decide)
  · exact absurd h.window (by decide)

/-- A connection as `tcp_rx_listener` leaves it: the SYN of the peer is answered, and the send
window is still empty. -/
def Conn.answered : Conn := { Conn.opened 100 with state := .synReceived, sndUna := 0, sndWnd := 0 }

/-- A reset that is not acceptable establishes such a connection. -/
theorem unacceptable_establishes :
    isAcceptable Conn.answered.rx (strayAck (tcpRst ||| tcpAck)).mbuf.spanWord
      (strayAck (tcpRst ||| tcpAck)).seq = false ∧
    ∃ c' d, tcpRxConn ⟨1,.sent⟩ .answered (strayAck (tcpRst ||| tcpAck)) = .ok (c',d) ∧
      Conn.answered.state = .synReceived ∧ c'.state = .established := by
  have hrun : (tcpRxConn ⟨1,.sent⟩ .answered (strayAck (tcpRst ||| tcpAck))).toOption.map
      (fun r => r.1.state) = some .established := by decide +kernel
  cases heq : tcpRxConn ⟨1,.sent⟩ .answered (strayAck (tcpRst ||| tcpAck)) with
  | error e =>
    rw [heq] at hrun
    cases hrun
  | ok r =>
    rw [heq] at hrun
    exact ⟨by decide,r.1,r.2,rfl,rfl,Option.some.inj hrun⟩

end Vessel.Tcp
