import Vessel.TcpAck

/-! What one received packet does to the sending side of a connection, and what it owes to others.
It wakes the writers when the send window opens, a reader
when text arrives with PUSH, and all readers when the receiving side is closed; it drops the reference
of the state machine when it closes the connection, and only then; and past the SYN it leaves the
scaling of the windows alone. -/
namespace Vessel.Tcp

open Serial List

/-- Some buffer of the queue arrived with PUSH. -/
def pushed (q : List Mbuf) : Bool := q.any fun m => has m.flags tcpPush

/-- The connection was established; it may be closed by now. -/
def Opened (c : Conn) : Prop := State.established.ctorIdx ≤ c.state.ctorIdx

/-- The states that a connection enters by a FIN of its own, or by the end of it. -/
def finSent : State → Bool
  | .synSent | .synReceived | .established | .closeWait => false
  | _ => true

/-- What only the options of a SYN change. -/
def Conn.scaling (c : Conn) : ℕ × ℕ × ℕ := (c.sndWscale,c.sndMss,c.rcvWscale)

/-- What a section owes that leaves `d` to be done: to the threads that wait, to the reference of the
state machine and to the sending side. -/
structure Owes (c c' : Conn) (d : List Deferred) : Prop where
  opened : Opened c → Opened c'
  txExclusive : c'.txExclusive = c.txExclusive
  rxExclusive : c'.rxExclusive = c.rxExclusive
  window : Opened c → tcpIsSndFull c = true → tcpIsSndFull c' = true ∨ .wakeWriters ∈ d
  text : pushed c'.rx.rxq = true →
    pushed c.rx.rxq = true ∨ .wakeReader ∈ d ∨ .wakeReaders ∈ d
  closed : c'.rxClosed = true → c.rxClosed = true ∨ .wakeReaders ∈ d
  puts : puts d = if c.state ≠ .closed ∧ c'.state = .closed then 1 else 0
  stays : c.state = .closed → c'.state = .closed
  mono : c.txClosed = true → c'.txClosed = true
  sent : finSent c'.state = true → finSent c.state = true ∨ c'.txClosed = true
  early : c'.txClosed = true → c.txClosed = true ∨ c.state ≠ .closed ∧ c'.state = .closed
  past : c.state ≠ .synSent → c'.state ≠ .synSent ∧ c'.scaling = c.scaling

theorem puts_append (d d' : List Deferred) : puts (d++d') = puts d+puts d' := countP_append

theorem pushed_append (q q' : List Mbuf) : pushed (q++q') = (pushed q || pushed q') :=
  any_append

theorem pushed_singleton (m : Mbuf) : pushed [m] = has m.flags tcpPush := by simp [pushed]

section Text

variable {r r' : Ingress} {m : Mbuf} {q : List Mbuf} {t t' : Text}

theorem clipHead_flags {m' : Mbuf} (h : clipHead r m = .ok m') : m'.flags = m.flags := by
  unfold clipHead at h
  split at h
  · obtain ⟨m₁,hpull,h⟩ := bind_eq_ok h
    unfold mbufPull at hpull
    split at hpull
    · cases hpull
    · cases hpull
      cases h
      rfl
  · cases h
    rfl

theorem clipTail_flags {m' : Mbuf} (h : clipTail r m = .ok m') : m'.flags = m.flags := by
  unfold clipTail at h
  split at h
  · obtain ⟨m₁,htrim,h⟩ := bind_eq_ok h
    unfold mbufTrim at htrim
    split at htrim
    · cases htrim
    · cases htrim
      cases h
      rfl
  · cases h
    rfl

theorem pushed_tcpRxAppendText (h : tcpRxAppendText r m = .ok r') :
    pushed r'.rxq = (pushed r.rxq || has m.flags tcpPush) := by
  obtain ⟨_,-,h⟩ := bind_eq_ok h
  obtain ⟨_,-,h⟩ := bind_eq_ok h
  obtain ⟨m₁,hhead,h⟩ := bind_eq_ok h
  obtain ⟨m₂,htail,h⟩ := bind_eq_ok h
  obtain ⟨_,-,h⟩ := bind_eq_ok h
  cases h
  rw [pushed_append,pushed_singleton,clipTail_flags htail,clipHead_flags hhead]

/-- A queue that got a buffer with PUSH has a reader to wake. -/
def Text.Calls (r : Ingress) (t : Text) : Prop :=
  pushed t.rx.rxq = true → pushed r.rxq = true ∨ t.wake = true

theorem drain_calls (hc : t.Calls r) (h : drain q t = .ok t') : t'.Calls r := by
  induction q generalizing t with
  | nil =>
    cases h
    exact hc
  | cons pos rest ih =>
    unfold drain at h
    split at h
    · refine ih ?_ h
      exact hc
    split at h
    · cases h
      exact hc
    · obtain ⟨rx,-,h⟩ := bind_eq_ok h
      exact ih (fun _ => Or.inr rfl) h

theorem drainQueue_calls (hc : t.Calls r) (h : drainQueue t = .ok t') : t'.Calls r := by
  obtain ⟨t₁,hdrain,h⟩ := bind_eq_ok h
  cases h
  intro hp
  refine (drain_calls hc hdrain hp).imp_right fun hw => ?_
  rw [hw]
  rfl

theorem tcpRxText_calls (h : tcpRxText r m = .ok (some t)) : t.Calls r := by
  unfold tcpRxText at h
  split at h
  · cases h
  split at h
  · obtain ⟨rx,happend,h⟩ := bind_eq_ok h
    obtain ⟨t₁,hdrain,heq⟩ := map_eq_ok h
    cases heq
    refine drainQueue_calls (fun hp => ?_) hdrain
    dsimp only at hp ⊢
    rw [pushed_tcpRxAppendText happend,Bool.or_eq_true] at hp
    refine hp.imp_right fun hpush => ?_
    rw [has_mono (by decide) hpush]
    rfl
  split at h
  · cases h
  split at h
  · cases h
  · obtain ⟨t₁,hdrain,heq⟩ := map_eq_ok h
    cases heq
    exact drainQueue_calls (fun hp => Or.inl hp) hdrain

end Text

section Sections

variable {env : Env} {c c' c'' : Conn} {d d' : List Deferred} {m : Mbuf} {v v' : Slow}
  {seq ack win len : BitVec 32}

theorem Owes.trans (h : Owes c c' d) (h' : Owes c' c'' d') : Owes c c'' (d++d') where
  opened := h'.opened ∘ h.opened
  txExclusive := h'.txExclusive.trans h.txExclusive
  rxExclusive := h'.rxExclusive.trans h.rxExclusive
  window ho hc := by
    rcases h.window ho hc with hc' | hw
    · exact (h'.window (h.opened ho) hc').imp_right (mem_append_right d)
    · exact Or.inr (mem_append_left _ hw)
  text hp := by
    rcases h'.text hp with hp' | hw
    · exact (h.text hp').imp_right (Or.imp (mem_append_left d') (mem_append_left d'))
    · exact Or.inr (hw.imp (mem_append_right d) (mem_append_right d))
  closed hc := by
    rcases h'.closed hc with hc' | hw
    · exact (h.closed hc').imp_right (mem_append_left d')
    · exact Or.inr (mem_append_right _ hw)
  puts := by
    have := h.stays
    have := h'.stays
    rw [puts_append,h.puts,h'.puts]
    grind
  stays := h'.stays ∘ h.stays
  mono := h'.mono ∘ h.mono
  sent hf := by
    rcases h'.sent hf with hf' | ht
    · exact (h.sent hf').imp_right h'.mono
    · exact Or.inr ht
  early hc := by
    rcases h'.early hc with hc' | ⟨hopen,hs⟩
    · exact (h.early hc').imp_right (And.imp_right h'.stays)
    · exact Or.inr ⟨mt h.stays hopen,hs⟩
  past hs := ⟨(h'.past (h.past hs).1).1,(h'.past (h.past hs).1).2.trans (h.past hs).2⟩

theorem tcpIsSndFull_congr (hk : SendKeeps c c') (hw : c'.sndWnd = c.sndWnd) :
    tcpIsSndFull c' = tcpIsSndFull c := by
  rw [tcpIsSndFull,tcpIsSndFull,hk.sndUna,hk.sndNxt,hw]

theorem Owes.part (hs : c'.state = c.state)
    (hex : c'.txExclusive = c.txExclusive ∧ c'.rxExclusive = c.rxExclusive)
    (hc : c'.rxClosed = c.rxClosed ∧ c'.txClosed = c.txClosed) (hd : Tcp.puts d = 0)
    (hw : Opened c → tcpIsSndFull c = true → tcpIsSndFull c' = true ∨ .wakeWriters ∈ d)
    (ht : pushed c'.rx.rxq = true → pushed c.rx.rxq = true ∨ .wakeReader ∈ d)
    (hscale : c.state ≠ .synSent → c'.scaling = c.scaling) : Owes c c' d where
  opened ho := by rw [Opened,hs]; exact ho
  txExclusive := hex.1
  rxExclusive := hex.2
  window := hw
  text hp := (ht hp).imp_right Or.inl
  closed h := Or.inl (hc.1.symm.trans h)
  puts := by
    rw [hd,hs,if_neg]
    exact fun h => h.1 h.2
  stays := hs.trans
  mono := hc.2.trans
  sent hf := Or.inl (by rwa [← hs])
  early h := Or.inl (hc.2.symm.trans h)
  past hp := ⟨by rwa [hs],hscale hp⟩

theorem Owes.sends (hr : Keeps c c') (hs : c'.state = c.state) (hk : Sends env ack win c c')
    (hd : Tcp.puts d = 0)
    (hw : tcpIsSndFull c = true → tcpIsSndFull c' = true ∨ .wakeWriters ∈ d) : Owes c c' d := by
  refine .part hs ⟨hk.txExclusive,hr.rxExclusive⟩ ⟨hr.rxClosed,hk.txClosed⟩ hd (fun _ => hw)
    (fun hp => ?_) fun _ => ?_
  · rw [hr.rx] at hp
    exact Or.inl hp
  · rw [Conn.scaling,hk.sndWscale,hk.sndMss,hk.rcvWscale]
    rfl

theorem Owes.keeps (hr : Keeps c c') (hs : c'.state = c.state) (hk : SendKeeps c c')
    (hw : c'.sndWnd = c.sndWnd) (hd : Tcp.puts d = 0) : Owes c c' d := by
  have hsends : Sends ⟨0,.sent⟩ 0 0 c c' := hk.sends (Or.inl hw)
  refine .sends hr hs hsends hd fun hfull => ?_
  rw [tcpIsSndFull_congr hk hw]
  exact Or.inl hfull

theorem Owes.refl (c : Conn) (hd : Tcp.puts d = 0) : Owes c c d :=
  .keeps (.refl c) rfl (.refl c) rfl hd

theorem Owes.goto {s₀ s : State} (hs : c.state = s₀) (hle : s₀.ctorIdx ≤ s.ctorIdx)
    (hopen : s₀ ≠ .closed ∧ s ≠ .synSent) (hsent : finSent s = true → finSent s₀ = true)
    (hd : Tcp.puts d = if s = .closed then 1 else 0) : Owes c { c with state := s } d where
  opened ho := by
    rw [Opened,hs] at ho
    exact ho.trans hle
  txExclusive := rfl
  rxExclusive := rfl
  window _ := Or.inl
  text := Or.inl
  closed := Or.inl
  puts := by simp [hd,hs,hopen.1]
  stays hc := absurd (hs.symm.trans hc) hopen.1
  mono := id
  sent hf := Or.inl (by rw [hs]; exact hsent hf)
  early := Or.inl
  past _ := ⟨hopen.2,rfl⟩

theorem tcpConnAck_puts (c : Conn) : puts (tcpConnAck c).2 = 0 := by
  unfold tcpConnAck
  split <;> rfl

theorem ackUpdate_puts (c : Conn) (seq ack win : BitVec 32) :
    puts (ackUpdate c seq ack win).2.2.2 = 0 := by
  have hack := tcpConnAck_puts { c with sndUna := ack }
  unfold ackUpdate
  by_cases hsame : c.sndUna = ack
  · simp only [hsame,decide_true,if_true]
    split <;> rfl
  · simp only [hsame,decide_false,Bool.false_eq_true,if_false]
    split <;> exact hack

theorem finAcked_spec {finished : Bool} (h : finAcked env c = .ok (finished,c',d)) :
    (∃ s, c' = { c with state := s } ∧
      (s = c.state ∨ c.sndUna = env.sndNxt ∧ s = c.state.onAck)) ∧ Owes c c' d := by
  unfold finAcked at h
  split at h
  · rename_i hs
    obtain ⟨d₁,hd,h⟩ := setState_bind h
    cases h
    exact ⟨⟨_,rfl,Or.inr ⟨hs.2,by rw [hs.1]; rfl⟩⟩,
      .goto hs.1 (by decide) (by decide) (by decide) hd⟩
  split at h
  · rename_i hs
    obtain ⟨d₁,hd,h⟩ := setState_bind h
    cases h
    exact ⟨⟨_,rfl,Or.inr ⟨hs.2,by rw [hs.1]; rfl⟩⟩,
      .goto hs.1 (by decide) (by decide) (by decide) hd⟩
  split at h
  · rename_i hs
    obtain ⟨d₁,hd,h⟩ := setState_bind h
    cases h
    -- the one change of state here that closes the connection
    exact ⟨⟨_,rfl,Or.inr ⟨hs.2,by rw [hs.1]; rfl⟩⟩,
      .goto hs.1 (by decide) (by decide) (by decide) (by rw [puts_append,hd]; rfl)⟩
  · cases h
    exact ⟨⟨_,rfl,Or.inl rfl⟩,.refl c rfl⟩

theorem rxSegmentText_spec {fin : Bool} (ho : Owes c v.conn v.deferred)
    (h : rxSegmentText v m len = .ok (v',fin)) :
    SendKeeps v.conn v'.conn ∧ v'.conn.sndWnd = v.conn.sndWnd ∧
      v'.conn.state = v.conn.state ∧ Owes c v'.conn v'.deferred := by
  unfold rxSegmentText at h
  split at h
  · obtain ⟨text,htext,h⟩ := bind_eq_ok h
    obtain ⟨_,-,h⟩ := bind_eq_ok h
    obtain ⟨_,-,h⟩ := bind_eq_ok h
    cases h
    refine ⟨⟨rfl,rfl,rfl,rfl,rfl,rfl,rfl,rfl,rfl⟩,rfl,rfl,
      ho.trans (.part rfl ⟨rfl,rfl⟩ ⟨rfl,rfl⟩ ?_ (fun _ => Or.inl) (fun hp => ?_) fun _ => rfl)⟩
    · split <;> rfl
    · cases text with
      | none => exact Or.inl hp
      | some t =>
        refine (tcpRxText_calls htext hp).imp_right fun hwake => ?_
        simp [hwake]
  · cases h
    exact ⟨.refl _,rfl,rfl,ho⟩

theorem rxFin_spec (ho : Owes c v.conn v.deferred) (h : rxFin env v = .ok v') :
    (∃ s, v'.conn = { v.conn with state := s } ∧
      (s = v.conn.state ∨ s = v.conn.state.onFin)) ∧ Owes c v'.conn v'.deferred := by
  obtain ⟨_,-,h⟩ := bind_eq_ok h
  split at h
  · rename_i hs
    obtain ⟨d₁,hd,h⟩ := setState_bind h
    cases h
    exact ⟨⟨_,rfl,Or.inr (by rw [hs]; rfl)⟩,
      ho.trans (.goto hs (by decide) (by decide) (by decide) hd)⟩
  split at h
  · rename_i hs
    obtain ⟨_,-,h⟩ := bind_eq_ok h
    obtain ⟨d₁,hd,h⟩ := setState_bind h
    cases h
    exact ⟨⟨_,rfl,Or.inr (by rw [hs]; rfl)⟩,
      ho.trans (.goto hs (by decide) (by decide) (by decide) hd)⟩
  split at h
  · rename_i hs
    obtain ⟨d₁,hd,h⟩ := setState_bind h
    cases h
    exact ⟨⟨_,rfl,Or.inr (by rw [hs]; rfl)⟩,
      ho.trans (.goto hs (by decide) (by decide) (by decide) hd)⟩
  · cases h
    exact ⟨⟨_,rfl,Or.inl rfl⟩,ho⟩

theorem rxAccepted_spec {same updated : Bool} (ho : Owes c v.conn v.deferred)
    (h : rxAccepted env v m ack len same updated = .ok v') :
    SendKeeps v.conn v'.conn ∧ v'.conn.sndWnd = v.conn.sndWnd ∧ Advances env v.conn v'.conn ∧
      Owes c v'.conn v'.deferred := by
  obtain ⟨hk,hw,hd⟩ := dupAck_sends v.conn ack len same updated
  obtain ⟨hr,hs⟩ := dupAck_keeps v.conn ack len same updated
  rw [rxAccepted] at h
  dsimp only at h
  obtain ⟨⟨finished,c₁,d₁⟩,hfin,h⟩ := bind_eq_ok h
  obtain ⟨⟨s,rfl,hack⟩,hfin⟩ := finAcked_spec hfin
  rw [hs,hk.sndUna] at hack
  have hacked := (ho.trans (.keeps hr hs hk hw hd)).trans hfin
  dsimp only at h
  split at h
  · cases h
    refine ⟨hk.trans (.setState _ _),hw,⟨v.conn.state,s,Or.inl rfl,?_,Or.inl rfl⟩,hacked⟩
    exact hack.imp_right fun h => ⟨hk.sndUna.trans h.1,h.2⟩
  · obtain ⟨⟨v₁,fin⟩,htext,h⟩ := bind_eq_ok h
    obtain ⟨hk',hw',hst,hread⟩ := rxSegmentText_spec hacked htext
    have hkeeps := (hk.trans (.setState _ s)).trans hk'
    split at h
    · obtain ⟨⟨s',hv,hs'⟩,hend⟩ := rxFin_spec hread h
      rw [hst] at hs'
      refine ⟨?_,?_,⟨v.conn.state,s,Or.inl rfl,?_,?_⟩,hend⟩ <;> rw [hv]
      · exact hkeeps.trans (.setState _ _)
      · exact hw'.trans hw
      · exact hack.imp_right fun h => ⟨hkeeps.sndUna.trans h.1,h.2⟩
      · exact hs'
    · cases h
      refine ⟨hkeeps,hw'.trans hw,⟨v.conn.state,s,Or.inl rfl,?_,Or.inl hst⟩,hread⟩
      exact hack.imp_right fun h => ⟨hkeeps.sndUna.trans h.1,h.2⟩

/-- The writers are woken if the window was full and is not. -/
theorem rxAckUpdate_spec {acceptable : Bool} (ho : Owes c v.conn v.deferred)
    (h : rxAckUpdate env v m ack win len acceptable = .ok v') :
    Goes env ack win v.conn v'.conn ∧ Owes c v'.conn v'.deferred := by
  rw [rxAckUpdate] at h
  dsimp only at h
  split at h
  · cases h
    exact ⟨.refl _,ho⟩
  generalize hu : (if (wrapsLte v.conn.sndUna ack && wrapsLte ack env.sndNxt) = true then
    ackUpdate v.conn m.segSeq ack win else (v.conn,false,false,[])) = u at h
  have hkeeps : Keeps v.conn u.1 ∧ u.1.state = v.conn.state ∧ Sends env ack win v.conn u.1 ∧
      puts u.2.2.2 = 0 := by
    rw [← hu]
    split
    · rename_i hrange
      rw [Bool.and_eq_true] at hrange
      obtain ⟨hr,hst⟩ := ackUpdate_keeps v.conn m.segSeq ack win
      exact ⟨hr,hst,ackUpdate_sends hrange.1 hrange.2,ackUpdate_puts ..⟩
    · exact ⟨.refl _,rfl,(SendKeeps.refl _).sends (Or.inl rfl),rfl⟩
  obtain ⟨hr,hst,hk,hd⟩ := hkeeps
  have hupdate : Owes v.conn u.1 (u.2.2.2++
      if tcpIsSndFull v.conn && !tcpIsSndFull u.1 then [.wakeWriters] else []) := by
    refine .sends hr hst hk ?_ fun hfull => ?_
    · rw [puts_append,hd]
      split <;> rfl
    · cases hfull' : tcpIsSndFull u.1 <;> simp [hfull]
  have hacked := ho.trans hupdate
  rw [← append_assoc] at hacked
  split at h
  · cases h
    exact ⟨⟨hk,_,_,Or.inl rfl,Or.inl rfl,Or.inl hst⟩,hacked⟩
  · obtain ⟨hk',hw,⟨s,s',hs,hs',hend⟩,haccepted⟩ := rxAccepted_spec hacked h
    dsimp only at hs
    rw [hst] at hs
    exact ⟨⟨hk.keeps hk' hw,s,s',hs,hs',hend⟩,haccepted⟩

theorem Opened.ne_synSent (h : Opened c) : c.state ≠ .synSent := by
  intro hs
  rw [Opened,hs] at h
  exact absurd h (by decide)

theorem Opened.ne_synReceived (h : Opened c) : c.state ≠ .synReceived := by
  intro hs
  rw [Opened,hs] at h
  exact absurd h (by decide)

theorem establish_owes (h : establish c seq ack win = .ok (c',d)) : Owes c c' d := by
  unfold establish at h
  split at h
  · rename_i hs
    obtain ⟨d₁,hd,h⟩ := setState_bind (f:=pure) (by rw [bind_pure]; exact h)
    cases h
    exact ⟨fun _ => Nat.le_refl _,rfl,rfl,fun ho => absurd hs ho.ne_synReceived,Or.inl,Or.inl,
      by simp [hd],fun hc => absurd (hs.symm.trans hc) (by decide),id,nofun,Or.inl,
      fun _ => ⟨nofun,rfl⟩⟩
  · cases h
    exact .refl c rfl

theorem sendRst_puts (acked : Bool) (seq ack len : BitVec 32) :
    puts [sendRst acked seq ack len] = 0 := by
  cases acked <;> rfl

theorem rxAck_spec {acceptable : Bool} (ho : Owes c v.conn v.deferred)
    (h : rxAck env v m ack win len acceptable = .ok v') :
    Goes env ack win v.conn v'.conn ∧ Owes c v'.conn v'.deferred := by
  rw [rxAck] at h
  dsimp only at h
  split at h
  · cases h
    exact ⟨.refl _,ho⟩
  split at h
  · cases h
    exact ⟨.refl _,ho.trans (.refl _ (sendRst_puts ..))⟩
  obtain ⟨⟨c₁,d₁⟩,hest,h⟩ := bind_eq_ok h
  obtain ⟨⟨hsends,s,s',hs,hs',hend⟩,hupdate⟩ := rxAckUpdate_spec (ho.trans (establish_owes hest)) h
  dsimp only at hsends hs
  refine ⟨?_,hupdate⟩
  unfold establish at hest
  split at hest
  · rename_i hsyn
    obtain ⟨_,-,hest⟩ := bind_eq_ok hest
    cases hest
    refine ⟨?_,.established,s',Or.inr ⟨hsyn,rfl⟩,?_,hend⟩
    · exact Sends.of_window (c:=v.conn) hsends
    · rcases hs with rfl | ⟨hs,-⟩
      · exact hs'
      · contradiction
  · cases hest
    exact ⟨hsends,s,s',hs,hs',hend⟩

theorem tcpConnFail_closes {err : ℤ} (h : tcpConnFail c err = .ok (c',d)) :
    c'.state = .closed ∧ c'.txClosed = true ∧ c'.txExclusive = c.txExclusive ∧ puts d = 1 := by
  rw [tcpConnFail] at h
  obtain ⟨d₁,hd,h⟩ := setState_bind h
  dsimp only at h
  obtain ⟨hk,-,hs⟩ := tcpConnShutdownRx_sends { c with state := .closed, err := err }
  cases h
  have hrx : puts (tcpConnShutdownRx { c with err := err, state := .closed }).2 = 0 := by
    unfold tcpConnShutdownRx
    split <;> rfl
  have htx : ∀ b : Bool, puts (if b then [] else [Deferred.wakeWriters]) = 0 := by
    intro b
    cases b <;> rfl
  refine ⟨hs,rfl,hk.txExclusive,?_⟩
  rw [puts_append,puts_append,puts_append,hd,hrx,htx]
  rfl

theorem tcpConnFail_owes {err : ℤ} (hopen : c.state ≠ .closed)
    (h : tcpConnFail c err = .ok (c',d)) : Owes c c' d := by
  obtain ⟨hs,ht,hex,hputs⟩ := tcpConnFail_closes h
  rw [tcpConnFail] at h
  obtain ⟨d₁,-,h⟩ := setState_bind h
  dsimp only at h
  cases h
  unfold tcpConnShutdownRx at *
  refine ⟨fun _ => ?_,hex,?_,fun _ hfull => ?_,fun hp => ?_,fun hc => ?_,
    by rw [hputs,if_pos ⟨hopen,hs⟩],fun _ => hs,fun _ => ht,fun _ => Or.inr ht,
    fun _ => Or.inr ⟨hopen,hs⟩,fun _ => ⟨by rw [hs]; rintro ⟨⟩,?_⟩⟩
  · rw [Opened,hs]
    decide
  · split <;> rfl
  · left
    split <;> exact hfull
  · left
    split at hp
    all_goals
      dsimp only at hp
      split at hp
      · exact hp
      · cases hp
  · split
    · left
      assumption
    · right
      simp
  · split <;> rfl

theorem Owes.waits (hsyn : c.state = .synSent) (hs : c'.state = c.state)
    (hex : c'.txExclusive = c.txExclusive ∧ c'.rxExclusive = c.rxExclusive)
    (hq : c'.rx.rxq = c.rx.rxq) (hc : c'.rxClosed = c.rxClosed ∧ c'.txClosed = c.txClosed)
    (hd : Tcp.puts d = 0) : Owes c c' d :=
  .part hs hex hc hd (fun ho => absurd hsyn ho.ne_synSent) (fun hp => Or.inl (by rwa [← hq]))
    fun h => absurd hsyn h

theorem rxSyn_spec {mem : ℕ → UInt8} {optlen : ℕ} (hsyn : c.state = .synSent)
    (h : rxSyn env c m ack win mem optlen = .ok v) :
    (v.conn.state = .synReceived ∨ v.conn.state = .established ∨ v.conn.state = .synSent) ∧
      v.conn.txPending = c.txPending ∧ Owes c v.conn v.deferred := by
  obtain ⟨⟨c₁,opts⟩,hparse,h⟩ := bind_eq_ok h
  have hopts : c₁.state = c.state ∧ c₁.txPending = c.txPending ∧ Owes c c₁ [] := by
    unfold tcpParseOptions at hparse
    split at hparse
    · cases hparse
    · cases hparse
      dsimp only
      split <;> split <;> exact ⟨rfl,rfl,.waits hsyn rfl ⟨rfl,rfl⟩ rfl ⟨rfl,rfl⟩ rfl⟩
  obtain ⟨hst,hpending,hopts⟩ := hopts
  have hsyn₁ := hst.trans hsyn
  dsimp only at h
  generalize hu : (if has m.flags tcpAck = true then tcpConnAck { c₁ with sndUna := ack }
    else (c₁,[])) = u at h
  have hack : u.1.state = .synSent ∧ u.1.txPending = c.txPending ∧ Owes c u.1 u.2 := by
    rw [← hu]
    split
    · unfold tcpConnAck
      split <;> exact ⟨hsyn₁,hpending,
        hopts.trans (.waits hsyn₁ rfl ⟨rfl,rfl⟩ rfl ⟨rfl,rfl⟩ rfl)⟩
    · exact ⟨hsyn₁,hpending,hopts⟩
  obtain ⟨hstate,hpending,hack⟩ := hack
  split at h
  · obtain ⟨d₁,hd,h⟩ := setState_bind h
    cases h
    have hwnd : Owes u.1 { u.1 with sndWnd := win, sndWl1 := m.segSeq, sndWl2 := ack } [] :=
      .waits hstate rfl ⟨rfl,rfl⟩ rfl ⟨rfl,rfl⟩ rfl
    exact ⟨Or.inr (Or.inl rfl),hpending,
      hack.trans (hwnd.trans (.goto hstate (by decide) (by decide) (by decide) hd))⟩
  · have hctl : (tcpTxCtl u.1 (tcpSyn ||| tcpAck) opts env.tx).2.1.txPending = u.1.txPending ∧
        Owes u.1 (tcpTxCtl u.1 (tcpSyn ||| tcpAck) opts env.tx).2.1
          (tcpTxCtl u.1 (tcpSyn ||| tcpAck) opts env.tx).2.2 := by
      cases env.tx <;> exact ⟨rfl,.waits hstate rfl ⟨rfl,rfl⟩ rfl ⟨rfl,rfl⟩ rfl⟩
    have hkept := (tcpTxCtl_keeps u.1 (tcpSyn ||| tcpAck) opts env.tx).2.trans hstate
    split at h
    · cases h
      exact ⟨Or.inr (Or.inr hkept),hctl.1.trans hpending,hack.trans hctl.2⟩
    · obtain ⟨d₁,hd,h⟩ := setState_bind h
      cases h
      exact ⟨Or.inl rfl,hctl.1.trans hpending,
        (hack.trans hctl.2).trans (.goto hkept (by decide) (by decide) (by decide) hd)⟩

theorem rxSlow_spec {mem : ℕ → UInt8} {optlen : ℕ}
    (h : rxSlow env c m ack win mem optlen = .ok v) :
    (Goes env ack win c v.conn ∨
      (has m.flags tcpRst = true ∨ has m.flags tcpSyn = true) ∧ v.conn.state = .closed ∨
      c.state = .synSent ∧ (v.conn.state = .synReceived ∨ v.conn.state = .established ∨
        v.conn.state = .synSent) ∧ v.conn.txPending = c.txPending) ∧
    Owes c v.conn v.deferred := by
  rw [rxSlow] at h
  split at h
  · cases h
    refine ⟨Or.inl (Goes.refl _),.refl c ?_⟩
    split <;> [rfl; exact sendRst_puts ..]
  rename_i hopen
  split at h
  · rename_i hsyn
    rw [rxSynSent] at h
    split at h
    · cases h
      exact ⟨Or.inl (Goes.refl _),.refl c (sendRst_puts ..)⟩
    split at h
    · rename_i hrst
      obtain ⟨⟨c₁,d₁⟩,hfail,h⟩ := bind_eq_ok h
      cases h
      simp only [Bool.and_eq_true] at hrst
      exact ⟨Or.inr (Or.inl ⟨Or.inl hrst.1.1.2,(tcpConnFail_closes hfail).1⟩),
        tcpConnFail_owes hopen hfail⟩
    split at h
    · cases h
      exact ⟨Or.inl (Goes.refl _),.refl c rfl⟩
    split at h
    · obtain ⟨hst,hpending,ho⟩ := rxSyn_spec hsyn h
      exact ⟨Or.inr (Or.inr ⟨hsyn,hst,hpending⟩),ho⟩
    · cases h
      exact ⟨Or.inl (Goes.refl _),.refl c rfl⟩
  split at h
  · split at h
    · cases h
      exact ⟨Or.inl (Goes.refl _),.refl c rfl⟩
    · exact (rxAck_spec (.refl c rfl) h).imp_left Or.inl
  split at h
  · obtain ⟨⟨c₁,d₁⟩,hfail,h⟩ := bind_eq_ok h
    cases h
    exact ⟨Or.inr (Or.inl ⟨Or.inl ‹_›,(tcpConnFail_closes hfail).1⟩),tcpConnFail_owes hopen hfail⟩
  split at h
  · obtain ⟨⟨c₁,d₁⟩,hfail,h⟩ := bind_eq_ok h
    cases h
    exact ⟨Or.inr (Or.inl ⟨Or.inr ‹_›,(tcpConnFail_closes hfail).1⟩),
      (Owes.refl c (sendRst_puts ..)).trans (tcpConnFail_owes hopen hfail)⟩
  · exact (rxAck_spec (.refl c rfl) h).imp_left Or.inl

theorem Slow.done_owes (v : Slow) (m : Mbuf) (hs : Owes c v.conn v.deferred) :
    Owes c (v.done m).1 (v.done m).2 := by
  obtain ⟨hk,hw⟩ := v.done_sends m
  obtain ⟨hr,hst⟩ := v.done_keeps m
  have hdone := hs.trans (.keeps hr hst hk hw
    (d:=(if v.doAck then [.ack] else [])++if v.doDrop then [.free [m]] else [])
    (by split <;> split <;> rfl))
  rw [← append_assoc] at hdone
  exact hdone

/-- The fast path is not taken while the window is full. -/
theorem tcpRxConnFast_owes (m : Mbuf) (win len : BitVec 32) (hfull : tcpIsSndFull c = false)
    (hack : wrapsLte ack env.sndNxt = true) :
    Owes c (tcpRxConnFast c m ack win len).1 (tcpRxConnFast c m ack win len).2 := by
  obtain ⟨hr,hst⟩ := fastAck_keeps c m.segSeq ack win
  have hsends : Sends env ack win c (fastAck c m.segSeq ack win).1 := fastAck_sends hack
  have hputs : puts (fastAck c m.segSeq ack win).2 = 0 := by
    unfold fastAck
    split
    · dsimp only
      by_cases hne : c.sndUna ≠ ack
      · simp only [if_pos hne]
        split <;> exact tcpConnAck_puts _
      · simp only [if_neg hne]
        split <;> rfl
    · rfl
  have hacked : Owes c (fastAck c m.segSeq ack win).1 (fastAck c m.segSeq ack win).2 :=
    .sends hr hst hsends hputs fun hc => by rw [hfull] at hc; cases hc
  rw [tcpRxConnFast]
  dsimp only
  rw [append_assoc]
  refine hacked.trans (.part rfl ⟨rfl,rfl⟩ ⟨rfl,rfl⟩ ?_ (fun _ => Or.inl) (fun hp => ?_) fun _ => rfl)
  · split <;> split <;> rfl
  · dsimp only at hp ⊢
    rw [pushed_append,pushed_singleton,Bool.or_eq_true] at hp
    refine hp.imp_right fun hpush => ?_
    simp [hpush]

end Sections

/-- All that a packet can do to the sending side: the connection goes on, it fails, or it has
waited for a SYN. -/
inductive Received (env : Env) (p : Packet) (c c' : Conn) : Prop
  | goes (goes : Goes env p.ack (p.window c) c c')
  | failed (flag : has p.flags tcpRst = true ∨ has p.flags tcpSyn = true)
    (state : c'.state = .closed) (exclusive : c'.txExclusive = c.txExclusive)
  | syn (waits : c.state = .synSent)
    (state : c'.state = .synReceived ∨ c'.state = .established ∨ c'.state = .synSent)
    (exclusive : c'.txExclusive = c.txExclusive) (pending : c'.txPending = c.txPending)

theorem tcpRxConn_spec {env : Env} {c c' : Conn} {p : Packet} {d : List Deferred}
    (h : tcpRxConn env c p = .ok (c',d)) : Received env p c c' ∧ Owes c c' d := by
  by_cases hpass : p.Passes c
  · rw [tcpRxConn_passes hpass] at h
    split at h
    · obtain ⟨v,hv,hdone⟩ := map_eq_ok h
      obtain ⟨hk,hw⟩ := v.done_sends p.mbuf
      have hs := (v.done_keeps p.mbuf).2
      obtain ⟨hslow,ho⟩ := rxSlow_spec hv
      have ho := v.done_owes p.mbuf ho
      rw [hdone] at hk hw hs ho
      refine ⟨?_,ho⟩
      rcases hslow with ⟨hsends,s,s',hmove⟩ | ⟨hflag,hst⟩ | ⟨hsyn,hst,hpending⟩
      · refine .goes ⟨hsends.keeps hk hw,s,s',?_⟩
        rw [hs,hk.sndUna]
        exact hmove
      · exact .failed hflag (hs.trans hst) ho.txExclusive
      · refine .syn hsyn ?_ ho.txExclusive (hk.txPending.trans hpending)
        rw [hs]
        exact hst
    · rename_i hfast
      simp only [slowPath,Bool.or_eq_true,not_or,Bool.not_eq_true] at hfast
      have hhi : wrapsLte p.ack env.sndNxt = true :=
        wrapsLte_of_not_wrapsGt hfast.1.1.1.1.1.2
      have hstate := (fastAck_keeps c p.mbuf.segSeq p.ack (p.window c)).2
      have ho := tcpRxConnFast_owes p.mbuf (p.window c) p.textLen hfast.1.1.1.2 hhi
      rw [Except.ok.inj h] at ho
      cases h
      exact ⟨.goes ⟨(fastAck_sends hhi).keeps ⟨rfl,rfl,rfl,rfl,rfl,rfl,rfl,rfl,rfl⟩ rfl,c.state,
        c.state,Or.inl rfl,Or.inl rfl,Or.inl hstate⟩,ho⟩
  · obtain ⟨_,hd⟩ := tcpRxConn_drops env hpass
    rw [hd] at h
    cases h
    exact ⟨.goes (Goes.refl _),.refl c rfl⟩

end Vessel.Tcp
