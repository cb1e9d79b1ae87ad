import Vessel.TcpStep

/-! What the pieces of `__tcp_rx_conn` do to the sending side of a connection. -/
namespace Vessel.Tcp

open Serial

theorem bind_eq_ok {α β : Type} {x : Except Abort α} {f : α → Except Abort β} {r : β}
    (h : x >>= f = .ok r) : ∃ a, x = .ok a ∧ f a = .ok r := by
  cases x with
  | error a => contradiction
  | ok a => exact ⟨a,rfl,h⟩

theorem map_eq_ok {α β : Type} {x : Except Abort α} {f : α → β} {y : β} (h : f <$> x = .ok y) :
    ∃ a, x = .ok a ∧ f a = y := by
  cases x with
  | error a => contradiction
  | ok a => exact ⟨a,rfl,Except.ok.inj h⟩

theorem some_eq_ok {α : Type} {x : Except Abort α} {t : α} (h : some <$> x = .ok (some t)) :
    x = .ok t := by
  obtain ⟨u,rfl,hsome⟩ := map_eq_ok h
  exact congrArg Except.ok (Option.some.inj hsome)

/-- The next state of a step that may fail or not be possible. -/
theorem toOption_bind_eq_some {α : Type} {x : Except Abort (Option α)} {t : α} :
    x.toOption.bind id = some t ↔ x = .ok (some t) := by
  cases x with
  | error a => exact iff_of_false (fun h => by cases h) fun h => by cases h
  | ok o => exact Except.ok.injEq _ _ ▸ Iff.rfl

/-- The next state when the FIN is acknowledged. -/
def State.onAck : State → State
  | .finWait1 => .finWait2
  | .closing => .timeWait
  | .lastAck => .closed
  | s => s

/-- The next state when the FIN of the peer is in order. -/
def State.onFin : State → State
  | .established => .closeWait
  | .finWait1 => .closing
  | .finWait2 => .timeWait
  | s => s

/-- The sending side is the same, but for the window, and so is the scale of our own. -/
structure SendKeeps (c c' : Conn) : Prop where
  sndUna : c'.sndUna = c.sndUna
  sndNxt : c'.sndNxt = c.sndNxt
  rcvWscale : c'.rcvWscale = c.rcvWscale
  sndWscale : c'.sndWscale = c.sndWscale
  sndMss : c'.sndMss = c.sndMss
  txq : c'.txq = c.txq
  txPending : c'.txPending = c.txPending
  txExclusive : c'.txExclusive = c.txExclusive
  txClosed : c'.txClosed = c.txClosed

/-- The acknowledgment number is taken, between `snd_una` and the loaded `snd_nxt`, or nothing
is. -/
inductive TakesAck (env : Env) (ack : BitVec 32) (c c' : Conn) : Prop
  | left (una : c'.sndUna = c.sndUna) (txq : c'.txq = c.txq)
  | taken (lower : wrapsLte c.sndUna ack = true) (upper : wrapsLte ack env.sndNxt = true)
    (una : c'.sndUna = ack)
    (txq : c'.txq = if c.txExclusive then c.txq else (ackedPrefix ack c.txq).2)

/-- What a packet that does not end the connection does to its sending side. -/
structure Sends (env : Env) (ack win : BitVec 32) (c c' : Conn) : Prop where
  sndNxt : c'.sndNxt = c.sndNxt
  rcvWscale : c'.rcvWscale = c.rcvWscale
  sndWscale : c'.sndWscale = c.sndWscale
  sndMss : c'.sndMss = c.sndMss
  txPending : c'.txPending = c.txPending
  txExclusive : c'.txExclusive = c.txExclusive
  txClosed : c'.txClosed = c.txClosed
  sndWnd : c'.sndWnd = c.sndWnd ∨ c'.sndWnd = win
  takes : TakesAck env ack c c'

/-- The states that a packet leads to: `SYN_RECEIVED` is established, a FIN is acknowledged up to
the loaded `snd_nxt`, and the FIN of the peer is in order. -/
def Advances (env : Env) (c c' : Conn) : Prop :=
  ∃ s s', (s = c.state ∨ c.state = .synReceived ∧ s = .established) ∧
    (s' = s ∨ c'.sndUna = env.sndNxt ∧ s' = s.onAck) ∧ (c'.state = s' ∨ c'.state = s'.onFin)

def Deferred.isPut : Deferred → Bool
  | .put => true
  | _ => false

/-- How often a section calls `tcp_conn_put`. -/
def puts (d : List Deferred) : ℕ := d.countP Deferred.isPut

section Pieces

variable {env : Env} {c c' c'' : Conn} {m : Mbuf} {seq ack win len : BitVec 32} {d : List Deferred}

theorem SendKeeps.refl (c : Conn) : SendKeeps c c := ⟨rfl,rfl,rfl,rfl,rfl,rfl,rfl,rfl,rfl⟩

theorem SendKeeps.trans (h : SendKeeps c c') (h' : SendKeeps c' c'') : SendKeeps c c'' where
  sndUna := h'.sndUna.trans h.sndUna
  sndNxt := h'.sndNxt.trans h.sndNxt
  rcvWscale := h'.rcvWscale.trans h.rcvWscale
  sndWscale := h'.sndWscale.trans h.sndWscale
  sndMss := h'.sndMss.trans h.sndMss
  txq := h'.txq.trans h.txq
  txPending := h'.txPending.trans h.txPending
  txExclusive := h'.txExclusive.trans h.txExclusive
  txClosed := h'.txClosed.trans h.txClosed

theorem SendKeeps.sends (h : SendKeeps c c') (hwnd : c'.sndWnd = c.sndWnd ∨ c'.sndWnd = win) :
    Sends env ack win c c' where
  sndNxt := h.sndNxt
  rcvWscale := h.rcvWscale
  sndWscale := h.sndWscale
  sndMss := h.sndMss
  txPending := h.txPending
  txExclusive := h.txExclusive
  txClosed := h.txClosed
  sndWnd := hwnd
  takes := .left h.sndUna h.txq

theorem Sends.keeps (h : Sends env ack win c c') (hk : SendKeeps c' c'')
    (hwnd : c''.sndWnd = c'.sndWnd) : Sends env ack win c c'' where
  sndNxt := hk.sndNxt.trans h.sndNxt
  rcvWscale := hk.rcvWscale.trans h.rcvWscale
  sndWscale := hk.sndWscale.trans h.sndWscale
  sndMss := hk.sndMss.trans h.sndMss
  txPending := hk.txPending.trans h.txPending
  txExclusive := hk.txExclusive.trans h.txExclusive
  txClosed := hk.txClosed.trans h.txClosed
  sndWnd := by rw [hwnd]; exact h.sndWnd
  takes := by
    cases h.takes with
    | left una txq => exact .left (hk.sndUna.trans una) (hk.txq.trans txq)
    | taken lower upper una txq =>
      exact .taken lower upper (hk.sndUna.trans una) (hk.txq.trans txq)

theorem setState_bind {α : Type} {s : State} {f : Conn × List Deferred → Except Abort α} {r : α}
    (h : tcpConnSetState c s >>= f = .ok r) :
    ∃ d, puts d = 0 ∧ f ({ c with state := s },d) = .ok r := by
  obtain ⟨_,hset,hf⟩ := bind_eq_ok h
  obtain ⟨_,-,hset⟩ := bind_eq_ok hset
  cases hset
  refine ⟨_,?_,hf⟩
  split <;> rfl

theorem SendKeeps.setState (c : Conn) (s : State) : SendKeeps c { c with state := s } :=
  ⟨rfl,rfl,rfl,rfl,rfl,rfl,rfl,rfl,rfl⟩

theorem dupAck_sends (c : Conn) (ack len : BitVec 32) (same updated : Bool) :
    SendKeeps c (dupAck c ack len same updated).1 ∧
      (dupAck c ack len same updated).1.sndWnd = c.sndWnd ∧
      puts (dupAck c ack len same updated).2 = 0 := by
  unfold dupAck
  split
  · dsimp only
    split
    · split
      · exact ⟨⟨rfl,rfl,rfl,rfl,rfl,rfl,rfl,rfl,rfl⟩,rfl,rfl⟩
      · exact ⟨⟨rfl,rfl,rfl,rfl,rfl,rfl,rfl,rfl,rfl⟩,rfl,by cases c.txq.head? <;> rfl⟩
    · exact ⟨⟨rfl,rfl,rfl,rfl,rfl,rfl,rfl,rfl,rfl⟩,rfl,rfl⟩
  · split <;> exact ⟨⟨rfl,rfl,rfl,rfl,rfl,rfl,rfl,rfl,rfl⟩,rfl,rfl⟩

theorem tcpConnAck_sends (hlo : wrapsLte c.sndUna ack = true) (hhi : wrapsLte ack env.sndNxt = true)
    (hu : c' = { c with sndUna := ack, repAcks := c'.repAcks }) :
    Sends env ack win c (tcpConnAck c').1 := by
  rw [hu]
  unfold tcpConnAck
  split
  · rename_i hex
    exact ⟨rfl,rfl,rfl,rfl,rfl,rfl,rfl,Or.inl rfl,.taken hlo hhi rfl (if_pos hex).symm⟩
  · rename_i hex
    exact ⟨rfl,rfl,rfl,rfl,rfl,rfl,rfl,Or.inl rfl,.taken hlo hhi rfl (if_neg hex).symm⟩

theorem Sends.window (seq : BitVec 32) (h : Sends env ack win c c') :
    Sends env ack win c { c' with sndWnd := win, sndWl1 := seq, sndWl2 := ack } := by
  obtain ⟨h₁,h₂,h₃,h₄,h₅,h₆,h₇,-,htakes⟩ := h
  refine ⟨h₁,h₂,h₃,h₄,h₅,h₆,h₇,Or.inr rfl,?_⟩
  cases htakes with
  | left una txq => exact .left una txq
  | taken lower upper una txq => exact .taken lower upper una txq

/-- A connection that was just established has its window from the same packet. -/
theorem Sends.of_window {s : State}
    (h : Sends env ack win { c with state := s, sndWnd := win, sndWl1 := seq, sndWl2 := ack } c') :
    Sends env ack win c c' := by
  obtain ⟨h₁,h₂,h₃,h₄,h₅,h₆,h₇,hwnd,htakes⟩ := h
  refine ⟨h₁,h₂,h₃,h₄,h₅,h₆,h₇,Or.inr (hwnd.elim id id),?_⟩
  cases htakes with
  | left una txq => exact .left una txq
  | taken lower upper una txq => exact .taken lower upper una txq

theorem ackUpdate_sends (hlo : wrapsLte c.sndUna ack = true) (hhi : wrapsLte ack env.sndNxt = true) :
    Sends env ack win c (ackUpdate c seq ack win).1 := by
  unfold ackUpdate
  dsimp only
  generalize hu : (if decide (c.sndUna = ack) = true then (c,[])
    else tcpConnAck { c with sndUna := ack }) = u
  have hacked : Sends env ack win c u.1 := by
    rw [← hu]
    split
    · exact (SendKeeps.refl c).sends (Or.inl rfl)
    · exact tcpConnAck_sends hlo hhi rfl
  split
  · exact hacked.window _
  · exact hacked

theorem fastAck_sends (hhi : wrapsLte ack env.sndNxt = true) :
    Sends env ack win c (fastAck c seq ack win).1 := by
  unfold fastAck
  split
  · rename_i hlo
    dsimp only
    generalize hu : (if c.sndUna ≠ ack then tcpConnAck { c with sndUna := ack, repAcks := 0 }
      else (c,[])) = u
    have hacked : Sends env ack win c u.1 := by
      rw [← hu]
      split
      · exact tcpConnAck_sends hlo hhi rfl
      · exact (SendKeeps.refl c).sends (Or.inl rfl)
    split
    · exact (hacked.window seq).keeps ⟨rfl,rfl,rfl,rfl,rfl,rfl,rfl,rfl,rfl⟩ rfl
    · exact hacked
  · exact (SendKeeps.refl c).sends (Or.inl rfl)

/-- A packet that does not end the connection. -/
def Goes (env : Env) (ack win : BitVec 32) (c c' : Conn) : Prop :=
  Sends env ack win c c' ∧ Advances env c c'

theorem Goes.refl (c : Conn) : Goes env ack win c c :=
  ⟨(SendKeeps.refl c).sends (Or.inl rfl),_,_,Or.inl rfl,Or.inl rfl,Or.inl rfl⟩

theorem tcpConnShutdownRx_sends (c : Conn) : SendKeeps c (tcpConnShutdownRx c).1 ∧
    (tcpConnShutdownRx c).1.sndWnd = c.sndWnd ∧ (tcpConnShutdownRx c).1.state = c.state := by
  unfold tcpConnShutdownRx
  split <;> exact ⟨⟨rfl,rfl,rfl,rfl,rfl,rfl,rfl,rfl,rfl⟩,rfl,rfl⟩

theorem Slow.done_sends (v : Slow) (m : Mbuf) :
    SendKeeps v.conn (v.done m).1 ∧ (v.done m).1.sndWnd = v.conn.sndWnd := by
  rw [Slow.done]
  cases v.doAck <;> exact ⟨⟨rfl,rfl,rfl,rfl,rfl,rfl,rfl,rfl,rfl⟩,rfl⟩

end Pieces

end Vessel.Tcp
