import Vessel.TcpSend

/-! The close handshake: how a connection leaves the states in which its FIN waits for an
acknowledgment. -/
namespace Vessel.TcpSend

open Tcp Serial

/-- The states between the FIN and its acknowledgment. -/
def AwaitsAck : State → Prop
  | .finWait1 | .closing | .lastAck => True
  | _ => False

/-- The acknowledgment of the FIN, with or without the FIN of the peer in the same segment. -/
def FinAcked : State → State → Prop
  | .finWait1,.finWait2 | .finWait1,.timeWait | .closing,.timeWait | .lastAck,.closed => True
  | _,_ => False

/-- Nobody writes after the FIN, which has the last number that was sent. -/
structure FinInv (s : Sys) : Prop where
  closed : AwaitsAck s.conn.state → s.conn.txClosed = true
  writer : AwaitsAck s.conn.state → s.writer = .idle ∨ ∃ i,s.writer = .resending i
  last : AwaitsAck s.conn.state → ∃ f,s.fins.getLast? = some f ∧ s.conn.sndNxt = f+1

variable {s t : Sys} {ev : Event} {c : Conn}

theorem finInv_start (h : ¬AwaitsAck c.state) : FinInv (.start c) where
  closed ha := absurd ha h
  writer ha := absurd ha h
  last ha := absurd ha h

theorem FinInv.keep (h : FinInv s) (hwriter : t.writer = s.writer)
    (hstate : AwaitsAck t.conn.state → AwaitsAck s.conn.state ∧
      t.conn.txClosed = s.conn.txClosed ∧ t.conn.sndNxt = s.conn.sndNxt ∧ t.fins = s.fins) :
    FinInv t where
  closed ht := (hstate ht).2.1.trans (h.closed (hstate ht).1)
  writer ht := by
    rw [hwriter]
    exact h.writer (hstate ht).1
  last ht := by
    obtain ⟨hs,-,hnxt,hfins⟩ := hstate ht
    rw [hnxt,hfins]
    exact h.last hs

theorem awaitsAck_onFin {st : State} (h : AwaitsAck st.onFin) : AwaitsAck st := by
  cases st <;> trivial

theorem awaitsAck_onAck {st : State} (h : AwaitsAck st.onAck) : AwaitsAck st := by
  cases st <;> trivial

/-- No packet leads into one of the states. -/
theorem awaitsAck_of_advances {env : Env} {c' : Conn} (h : Advances env c c')
    (hc : AwaitsAck c'.state) : AwaitsAck c.state := by
  obtain ⟨st,st',hs,hs',hend⟩ := h
  have hst' : AwaitsAck st' := by
    rcases hend with hend | hend
    · rwa [← hend]
    · exact awaitsAck_onFin (by rwa [← hend])
  have hst : AwaitsAck st := by
    rcases hs' with rfl | ⟨-,rfl⟩
    · exact hst'
    · exact awaitsAck_onAck hst'
  rcases hs with rfl | ⟨-,rfl⟩
  · exact hst
  · exact hst.elim

theorem awaitsAck_ne_closed {st : State} (h : st = .closed) : ¬AwaitsAck st := by
  rw [h]
  exact id

theorem FinInv.writing (h : FinInv s) (hidle : s.writer ≠ .idle)
    (hresend : ∀ i,s.writer ≠ .resending i) (hstate : t.conn.state = s.conn.state) : FinInv t := by
  have hs : ¬AwaitsAck t.conn.state := fun hs => by
    rw [hstate] at hs
    rcases h.writer hs with hw | ⟨i,hw⟩
    · exact hidle hw
    · exact hresend i hw
  exact ⟨fun hs' => absurd hs' hs,fun hs' => absurd hs' hs,fun hs' => absurd hs' hs⟩

theorem FinInv.resending (h : FinInv s)
    (hwriter : t.writer = .idle ∨ ∃ i,t.writer = .resending i) (hstate : t.conn.state = s.conn.state)
    (hclosed : t.conn.txClosed = s.conn.txClosed) (hnxt : t.conn.sndNxt = s.conn.sndNxt)
    (hfins : t.fins = s.fins) : FinInv t where
  closed ht := hclosed.trans (h.closed (by rwa [← hstate]))
  writer _ := hwriter
  last ht := by
    rw [hfins,hnxt]
    exact h.last (by rwa [← hstate])

theorem step_finInv (hex : Exclusive s) (h : FinInv s) (ht : s.step ev = some t) : FinInv t := by
  cases step_moves ht with
  | load | wait => exact h.keep rfl fun hs => ⟨hs,rfl,rfl,rfl⟩
  | recv loaded received =>
    cases received with
    | goes goes =>
      obtain ⟨sends,advances⟩ := goes
      exact h.keep rfl fun hs =>
        ⟨awaitsAck_of_advances advances hs,sends.txClosed,sends.sndNxt,rfl⟩
    | failed flag state => exact h.keep rfl fun hs => absurd hs (awaitsAck_ne_closed state)
    | syn waits state =>
      refine h.keep rfl fun hs => ?_
      rcases state with state | state | state <;> simp [state,AwaitsAck] at hs
  | quiet net keeps sndWnd state =>
    exact h.keep rfl fun hs => ⟨by rwa [← state],keeps.txClosed,keeps.sndNxt,rfl⟩
  | write ready opened | writev ready opened =>
    have hs : ¬AwaitsAck s.conn.state := fun hs => by simp [h.closed hs] at opened
    exact ⟨fun hs' => absurd hs' hs,fun hs' => absurd hs' hs,fun hs' => absurd hs' hs⟩
  | next writer => exact h.writing (by simp [writer]) (by simp [writer]) rfl
  | round writer => exact h.writing (by simp [writer]) (by simp [writer]) (round_keeps ..).2
  | finish writer finished => exact h.writing (by simp [writer]) (by simp [writer]) finished.state
  | finishResend writer finished =>
    exact h.resending (.inl rfl) finished.state finished.txClosed finished.sndNxt rfl
  | retransmit free => exact h.resending (.inr ⟨0,rfl⟩) rfl rfl rfl rfl
  | resend writer buffer resent => exact h.resending (.inr ⟨_,rfl⟩) rfl rfl rfl rfl
  | shut free shut =>
    cases shut with
    | failed state => exact h.keep rfl fun hs => absurd hs (awaitsAck_ne_closed state)
    | refused keeps sndWnd state =>
      exact h.keep rfl fun hs => ⟨by rwa [← state],keeps.txClosed,keeps.sndNxt,rfl⟩
    | queued sndNxt txPending txExclusive state =>
      refine ⟨fun hs => ?_,fun _ => .inl (hex free),fun _ => ⟨_,List.getLast?_concat,sndNxt⟩⟩
      rcases state with ⟨state,txClosed⟩ | ⟨-,txClosed⟩
      · exact txClosed.trans (h.closed (by rwa [← state]))
      · exact txClosed
  | timeWaitOver => exact h.keep rfl fun hs => hs.elim
  | abort state => exact h.keep rfl fun hs => absurd hs (awaitsAck_ne_closed state)

theorem finAcked_awaits {st st' : State} (h : FinAcked st st') : AwaitsAck st := by
  cases st <;> trivial

/-- The state changes because `snd_una` is the loaded `snd_nxt`. -/
theorem una_of_advances {env : Env} {c' : Conn} (h : Advances env c c')
    (hacked : FinAcked c.state c'.state) : c'.sndUna = env.sndNxt := by
  obtain ⟨st,st',hs,hs',hend⟩ := h
  rcases hs' with rfl | ⟨hack,-⟩
  · exfalso
    rcases hs with rfl | ⟨hs,-⟩
    · rcases hend with hend | hend
      · rw [hend] at hacked
        cases hst : c.state <;> simp [hst,FinAcked] at hacked
      · rw [hend] at hacked
        cases hst : c.state <;> simp [hst,FinAcked,State.onFin] at hacked
    · simp [hs,FinAcked] at hacked
  · exact hack

/-- A packet that moves the connection on as if its FIN were acknowledged has `snd_una` past the
FIN if and only if it loaded `snd_nxt` after the FIN was sent: the loaded value is then still
`snd_nxt`. -/
theorem fin_acked_iff {es : List Event} {i : ℕ} {tx : TxResult} {p : Packet} {nxt : BitVec 32}
    (hc : ¬AwaitsAck c.state) (hrun : Machine.run Sys.step (.start c) es = some s)
    (hload : s.loads[i]? = some nxt) (hstep : s.step (.recv i tx p) = some t)
    (hrst : has p.flags tcpRst = false) (hsyn : has p.flags tcpSyn = false)
    (hacked : FinAcked s.conn.state t.conn.state) :
    ∃ f,s.fins.getLast? = some f ∧ s.conn.sndNxt = f+1 ∧
      (t.conn.sndUna = f+1 ↔ nxt = s.conn.sndNxt) := by
  have hinv : Exclusive s ∧ FinInv s := by
    refine Machine.run_keeps (P:=fun s => Exclusive s ∧ FinInv s) (fun h hstep => ?_)
      ⟨fun _ => rfl,finInv_start hc⟩ hrun
    exact ⟨step_exclusive h.1 hstep,step_finInv h.1 h.2 hstep⟩
  obtain ⟨f,hlast,hnxt⟩ := hinv.2.last (finAcked_awaits hacked)
  refine ⟨f,hlast,hnxt,?_⟩
  obtain ⟨nxt',net,hload',received,rfl⟩ := step_recv hstep
  obtain rfl : nxt = nxt' := Option.some.inj (hload.symm.trans hload')
  have huna : net.conn.sndUna = nxt := by
    cases received with
    | goes goes => exact una_of_advances goes.2 hacked
    | failed flag => simp [hrst,hsyn] at flag
    | syn waits => simp [waits,FinAcked] at hacked
  rw [hnxt]
  exact huna ▸ .rfl

/-- The FIN is sent, then loaded, then acknowledged. -/
theorem fin_acked_iff_loaded : ∃ s t f,
    Machine.run Sys.step (.start (.opened 1000)) [.shutdown ⟨false,false⟩ .sent 0,.load] = some s ∧
      s.step (.recv 0 .sent (ackPacket 2)) = some t ∧ s.fins.getLast? = some f ∧
      t.conn.state = .finWait2 ∧ t.conn.sndUna = f+1 := by
  obtain ⟨s,hs,t,ht,hload,hfin,hfin2⟩ : ∃ s ∈ Machine.run Sys.step (.start (.opened 1000))
      [.shutdown ⟨false,false⟩ .sent 0,.load],∃ t ∈ s.step (.recv 0 .sent (ackPacket 2)),
        s.loads[0]? = some s.conn.sndNxt ∧ s.conn.state = .finWait1 ∧ t.conn.state = .finWait2 := by
    decide +kernel
  obtain ⟨f,hlast,-,hiff⟩ := fin_acked_iff (by simp [AwaitsAck,Conn.opened]) hs hload ht (by decide)
    (by decide) (by rw [hfin,hfin2]; trivial)
  exact ⟨s,t,f,hs,ht,hlast,hfin2,hiff.mpr rfl⟩

/-- A packet loads `snd_nxt`, the FIN is sent, and the packet takes the lock: it acknowledges
nothing, and the connection goes to `FIN_WAIT2` with its FIN, number 1, unacknowledged. -/
theorem fin_unacked : ∃ s ∈ Machine.run Sys.step (.start (.opened 1000))
    [.load,.shutdown ⟨false,false⟩ .sent 0],∃ t ∈ s.step (.recv 0 .sent (ackPacket 1)),
      s.conn.state = .finWait1 ∧ t.conn.state = .finWait2 ∧ s.fins = [1] ∧ t.conn.sndUna = 1 ∧
        wrapsLt 1 t.conn.sndUna = false := by
  decide +kernel

end Vessel.TcpSend
