import Vessel.TcpWake

/-! Threads do not wait for what is there: the invariant of `tx_wq` and `rx_wq`, in runs of all
calls, of retransmissions and of received packets, as long as no call leaves others waiting. -/
namespace Vessel.TcpWake

open Tcp List

/-- Threads that have `tx_exclusive`. -/
@[grind] def Pos.sends : Pos → Bool
  | .sending _ _ | .finishing _ | .resending _ => true
  | _ => false

/-- Threads that have `rx_exclusive`. -/
@[grind] def Pos.reads : Pos → Bool
  | .reading (some _) | .tryReading (some _) => true
  | _ => false

/-- A reader that is about to look at the queue: it has just called, or it was taken off
`rx_wq`. -/
@[grind] def Pos.arriving : Pos → Bool
  | .entry (.read _) => true
  | _ => false

/-- Threads that wait for `tx_wq`. -/
@[grind] def Pos.waitsTx : Pos → Bool
  | .parked (.read _) => false
  | .parked _ => true
  | _ => false

/-- Threads that wait for `rx_wq`. -/
@[grind] def Pos.waitsRx : Pos → Bool
  | .parked (.read _) => true
  | _ => false

/-- A read of `len` bytes ends between two buffers of the queue. -/
def endsBetween (len : ℕ) (q : List Mbuf) : Bool :=
  (List.range q.length).any fun n => ((q.take n).flatMap Mbuf.data).length = len

section Invariant

variable {ι : Type} [DecidableEq ι] {s t u : Sys ι} {i : ι} {c : Conn} {p : Pos}
  {d : List Deferred}

/-- The steps that leave no thread waiting and clear no flag of another thread: `tcp_try_write` ends
with nobody in `tx_wq`; `tcp_try_read` ends with nobody in `rx_wq`, or with `rx_exclusive` clear if
it stopped inside no buffer; and with a thread in `rx_wq` no read ends between two buffers. -/
def Sys.regular (s : Sys ι) : Event ι → Bool
  | .act i _ _ =>
    match s.pos i with
    | .entry (.read len) | .entry (.tryRead len) =>
      s.rxWq.isEmpty || !endsBetween len s.conn.rx.rxq
    | .finishing false => s.txWq.isEmpty
    | .tryReading none => !s.conn.rxExclusive
    | .tryReading (some _) => s.rxWq.isEmpty
    | _ => true
  | _ => true

theorem takeLoop_ends {len : ℕ} (q : List Mbuf) {readlen : ℕ} (hle : readlen ≤ len)
    (h : ∀ n < q.length, readlen+((q.take n).flatMap Mbuf.data).length ≠ len) :
    (takeLoop len q readlen).inside = true ∨ (takeLoop len q readlen).left = [] ∨
      (takeLoop len q readlen).sawFin = true := by
  induction q generalizing readlen with
  | nil => exact Or.inr (Or.inl rfl)
  | cons m rest ih =>
    have hne : readlen ≠ len := h 0 (Nat.succ_pos _)
    rw [takeLoop,if_neg (by omega)]
    dsimp only
    split
    · exact Or.inr (Or.inr rfl)
    split
    · exact Or.inl rfl
    · have hnext : readlen+m.data.length ≤ len := by omega
      have hrest := ih hnext fun n hn => by
        have := h (n+1) (Nat.succ_lt_succ hn)
        simp only [take_succ_cons,flatMap_cons,length_append] at this
        omega
      rcases hrest with hin | hleft | hfin
      · exact Or.inl hin
      · exact Or.inr (Or.inl hleft)
      · right
        right
        dsimp only
        rw [hfin,Bool.or_true]

/-- What holds of thread `i`. -/
@[grind cases] structure At (s : Sys ι) (i : ι) : Prop where
  txQueued : i ∈ s.txWq → (s.pos i).waitsTx = true
  rxQueued : i ∈ s.rxWq → (s.pos i).waitsRx = true
  tx : (s.pos i).sends = true ↔ s.txOwner = some i
  rx : (s.pos i).reads = true ↔ s.rxOwner = some i

@[grind cases] structure Shared (s : Sys ι) : Prop where
  opened : Opened s.conn
  nodup : s.rxWq.Nodup
  txFlag : s.conn.txExclusive = s.txOwner.isSome
  rxFlag : s.conn.rxExclusive = s.rxOwner.isSome

structure Base (s : Sys ι) : Prop where
  shared : Shared s
  thread : ∀ i, At s i

/-- Every queued thread has what it waits for, or a reader is on its way. -/
structure Fed (s : Sys ι) : Prop where
  writers : s.txWq ≠ [] → s.conn.txExclusive = true ∨ tcpIsSndFull s.conn = true
  readers : s.rxWq ≠ [] → pushed s.conn.rx.rxq = true →
    s.conn.rxExclusive = true ∨ ∃ j, (s.pos j).arriving = true
  closed : s.conn.rxClosed = true → s.rxWq = []

structure Inv (s : Sys ι) : Prop extends Base s, Fed s

/-! #### Wait queues -/

@[grind =] theorem woken_sends (p : Pos) : p.woken.sends = p.sends := by cases p <;> rfl

@[grind =] theorem woken_reads (p : Pos) : p.woken.reads = p.reads := by cases p <;> rfl

@[grind =] theorem woken_arriving (p : Pos) : p.woken.arriving = (p.arriving || p.waitsRx) := by
  cases p with
  | parked k => cases k <;> rfl
  | _ => exact (Bool.or_false _).symm

theorem waitsRx_of_waitsTx (h : p.waitsTx = true) : p.waitsRx = false := by
  cases p with
  | parked k => cases k <;> first | rfl | cases h
  | _ => rfl

attribute [local grind] wokenAt ownerOf
attribute [local grind =] Function.update_apply

/-- What the wakeups `d` do. -/
structure Woken (s t : Sys ι) (d : List Deferred) : Prop where
  base : Base t
  conn : t.conn = s.conn
  writers : t.txWq ≠ [] → s.txWq ≠ [] ∧ .wakeWriters ∉ d
  readers : t.rxWq ≠ [] → s.rxWq ≠ [] ∧ .wakeReaders ∉ d ∧
    (.wakeReader ∈ d → ∃ j, (t.pos j).arriving = true)
  arriving : (∃ j, (s.pos j).arriving = true) → ∃ j, (t.pos j).arriving = true

omit [DecidableEq ι] in
theorem Woken.trans {x : Deferred} (h : Woken s t [x]) (h' : Woken t u d) : Woken s u (x::d) where
  base := h'.base
  conn := h'.conn.trans h.conn
  writers hu := by
    obtain ⟨ht,hd⟩ := h'.writers hu
    obtain ⟨hs,hx⟩ := h.writers ht
    rw [mem_cons,not_or]
    exact ⟨hs,fun heq => hx (mem_singleton.mpr heq),hd⟩
  readers hu := by
    obtain ⟨ht,hd,hwake⟩ := h'.readers hu
    obtain ⟨hs,hx,hwake₀⟩ := h.readers ht
    rw [mem_cons,mem_cons,not_or]
    refine ⟨hs,⟨fun heq => hx (mem_singleton.mpr heq),hd⟩,?_⟩
    rintro (heq | hmem)
    · exact h'.arriving (hwake₀ (mem_singleton.mpr heq))
    · exact hwake hmem
  arriving ha := h'.arriving (h.arriving ha)

theorem arriving_wokenAt {pos : ι → Pos} (js : List ι) (h : ∃ j, (pos j).arriving = true) :
    ∃ j, (wokenAt pos js j).arriving = true := by
  obtain ⟨j,hj⟩ := h
  exact ⟨j,by grind -linarith⟩

theorem Base.ready {js tq rq : List ι} (h : Base s) (ht : ∀ j ∈ tq, j ∈ s.txWq ∧ j ∉ js)
    (hr : ∀ j ∈ rq, j ∈ s.rxWq ∧ j ∉ js) (hn : rq.Nodup) :
    Base { s with
      txWq := tq
      rxWq := rq
      pos := wokenAt s.pos js } := by
  obtain ⟨hopened,-,htx,hrx⟩ := h.shared
  refine ⟨⟨hopened,hn,htx,hrx⟩,fun j => ?_⟩
  have hj := h.thread j
  constructor <;> grind -linarith

theorem signal_woken (h : Base s) (x : Deferred) : Woken s (s.signal x) [x] := by
  -- a thread is in one queue at most
  have hapart : ∀ j ∈ s.txWq, j ∉ s.rxWq := fun j hj hr => by
    have := waitsRx_of_waitsTx ((h.thread j).txQueued hj)
    rw [(h.thread j).rxQueued hr] at this
    cases this
  have hn := h.shared.nodup
  cases x with
  | wakeWriters =>
    exact ⟨h.ready (by simp) (by grind -linarith) hn,rfl,fun hne => absurd rfl hne,
      fun hne => ⟨hne,by simp⟩,
      arriving_wokenAt _⟩
  | wakeReaders =>
    exact ⟨h.ready (by grind -linarith) (by simp) nodup_nil,rfl,fun hne => ⟨hne,by simp⟩,
      fun hne => absurd rfl hne,arriving_wokenAt _⟩
  | wakeReader =>
    change Woken s s.signalRx _
    unfold Sys.signalRx
    cases hq : s.rxWq with
    | nil => exact ⟨h,rfl,fun hne => ⟨hne,by simp⟩,fun hne => absurd hq hne,id⟩
    | cons j rest =>
      have hj := h.thread j
      refine ⟨h.ready (by grind -linarith) (by grind -linarith) (by grind -linarith),rfl,
        fun hne => ⟨hne,by simp⟩,
        fun _ => ⟨by simp [hq],by simp,fun _ => ⟨j,by grind -linarith⟩⟩,arriving_wokenAt _⟩
  | ack | rst | rstAck | ctl | retransmit | free | put =>
    exact ⟨h,rfl,fun hne => ⟨hne,by simp⟩,fun hne => ⟨hne,by simp⟩,id⟩

theorem wake_woken (h : Base s) (d : List Deferred) : Woken s (s.wake d) d := by
  induction d generalizing s with
  | nil =>
    refine ⟨h,rfl,fun hne => ⟨hne,not_mem_nil⟩,fun hne => ⟨hne,not_mem_nil,?_⟩,id⟩
    intro h
    cases h
  | cons x d ih =>
    have hx := signal_woken h x
    exact hx.trans (ih hx.base)

/-! #### Packets -/

omit [DecidableEq ι] in
theorem Base.recvBase (h : Base s) (hs : Owes s.conn c d) : Base { s with conn := c } := by
  obtain ⟨hopened,hn,htx,hrx⟩ := h.shared
  refine ⟨⟨hs.opened hopened,hn,hs.txExclusive.trans htx,hs.rxExclusive.trans hrx⟩,fun j => ?_⟩
  obtain ⟨htq,hrq,htx,hrx⟩ := h.thread j
  exact ⟨htq,hrq,htx,hrx⟩

theorem Inv.recv {env : Env} {p : Packet} (h : Inv s) (hrx : tcpRxConn env s.conn p = .ok (c,d)) :
    Inv (({ s with conn := c } : Sys ι).wake d) := by
  have hs := (tcpRxConn_spec hrx).2
  have hw := wake_woken (h.recvBase hs) d
  refine ⟨hw.base,fun hne => ?_,fun hne hp => ?_,fun hc => ?_⟩
  · obtain ⟨hq,hd⟩ := hw.writers hne
    rw [hw.conn]
    refine (h.writers hq).imp (fun hex => hs.txExclusive.trans hex) fun hfull => ?_
    exact (hs.window h.shared.opened hfull).resolve_right hd
  · obtain ⟨hq,hd,hwake⟩ := hw.readers hne
    rw [hw.conn] at hp ⊢
    rcases hs.text hp with hp | hone | hall
    · exact (h.readers hq hp).imp (fun hex => hs.rxExclusive.trans hex) hw.arriving
    · exact Or.inr (hwake hone)
    · exact absurd hall hd
  · by_contra hne
    obtain ⟨hq,hd,-⟩ := hw.readers hne
    rw [hw.conn] at hc
    rcases hs.closed hc with hc | hall
    · exact hq (h.closed hc)
    · exact hd hall

/-! #### Threads -/

/-- A thread leaves a flag alone, or sets it when it is not set, or clears what it has set. -/
@[grind] def Handles (uses uses' flag flag' : Bool) : Prop :=
  uses' = uses ∧ flag' = flag ∨ uses = false ∧ uses' = true ∧ flag = false ∧ flag' = true ∨
    uses = true ∧ uses' = false ∧ flag' = false

/-- A step of thread `i` keeps the invariant and clears no flag of another thread. -/
structure Kept (s t : Sys ι) (i : ι) : Prop where
  inv : Inv t
  tx : s.conn.txExclusive = true → t.conn.txExclusive = false → s.txOwner = some i
  rx : s.conn.rxExclusive = true → t.conn.rxExclusive = false → s.rxOwner = some i

theorem Base.move (h : Base s) (hp : (s.pos i).waitsTx = false ∧ (s.pos i).waitsRx = false)
    (ho : Opened c)
    (htx : Handles (s.pos i).sends p.sends s.conn.txExclusive c.txExclusive)
    (hrx : Handles (s.pos i).reads p.reads s.conn.rxExclusive c.rxExclusive) :
    Base (s.move i c p) := by
  have hs := h.shared
  have hi := h.thread i
  refine ⟨?_,fun j => ?_⟩
  · constructor <;> simp only [Sys.move] <;> grind -linarith
  · have hj := h.thread j
    constructor <;> simp only [Sys.move] <;> grind -linarith

/-- All readers are released at the end of the step. -/
theorem Woken.allReaders (hw : Woken (s.move i c p) t [.wakeReaders]) (h : Base s)
    (hwriters : s.txWq ≠ [] → c.txExclusive = true ∨ tcpIsSndFull c = true)
    (htx : Handles (s.pos i).sends p.sends s.conn.txExclusive c.txExclusive)
    (hrx : Handles (s.pos i).reads p.reads s.conn.rxExclusive c.rxExclusive) : Kept s t i := by
  have hi := h.thread i
  have hconn : t.conn = c := hw.conn
  have hempty : t.rxWq = [] := by
    by_contra hne
    exact (hw.readers hne).2.1 (mem_singleton.mpr rfl)
  refine ⟨⟨hw.base,fun hne => ?_,fun hne => absurd hempty hne,fun _ => hempty⟩,?_,?_⟩
  · rw [hconn]
    exact hwriters (hw.writers hne).1
  all_goals grind -linarith

/-- A step of a thread that is not a reader: the receiving side stays as it is. -/
theorem Inv.sent (h : Inv s) (hk : Keeps s.conn c) (hs : c.state = s.conn.state)
    (hp : (s.pos i).waitsTx = false ∧ (s.pos i).waitsRx = false ∧ (s.pos i).arriving = false ∧
      p.reads = (s.pos i).reads)
    (htx : Handles (s.pos i).sends p.sends s.conn.txExclusive c.txExclusive)
    (hw : s.txWq ≠ [] → c.txExclusive = true ∨ tcpIsSndFull c = true) :
    Kept s (s.move i c p) i := by
  have hi := h.thread i
  have ho : Opened c := by
    rw [Opened,hs]
    exact h.shared.opened
  have hrx : Handles (s.pos i).reads p.reads s.conn.rxExclusive c.rxExclusive :=
    Or.inl ⟨hp.2.2.2,hk.rxExclusive⟩
  refine ⟨⟨h.toBase.move ⟨hp.1,hp.2.1⟩ ho htx hrx,hw,fun hne hpush => ?_,fun hc => ?_⟩,?_,?_⟩
  · change pushed c.rx.rxq = true at hpush
    rw [hk.rx] at hpush
    refine (h.readers hne hpush).imp (fun hex => hk.rxExclusive.trans hex) ?_
    rintro ⟨j,hj⟩
    refine ⟨j,?_⟩
    simp only [Sys.move]
    grind -linarith
  · exact h.closed (hk.rxClosed.symm.trans hc)
  all_goals
    simp only [Sys.move]
    grind -linarith

theorem Inv.stay (h : Inv s)
    (hp : (s.pos i).waitsTx = false ∧ (s.pos i).waitsRx = false ∧ (s.pos i).arriving = false ∧
      p.reads = (s.pos i).reads ∧ p.sends = (s.pos i).sends) : Kept s (s.move i s.conn p) i :=
  h.sent (Keeps.refl _) rfl ⟨hp.1,hp.2.1,hp.2.2.1,hp.2.2.2.1⟩ (Or.inl ⟨hp.2.2.2.2,rfl⟩) h.writers

/-! #### Writers -/

theorem assertThat_eq_ok {b : Bool} {r : Unit} (h : assertThat b = .ok r) : b = true := by
  cases b with
  | true => rfl
  | false => cases h

theorem txEmit_rx {c' : Conn} {m : Mbuf} {rest rest' : List UInt8} {alloc : Bool}
    (h : txFill c rest alloc = some (c',m,rest')) : Keeps c (txEmit c' m rest' true) := by
  obtain ⟨n,-,hfilled⟩ := TcpSend.txFill_filled h
  rw [hfilled.conn,txEmit]
  split <;> exact ⟨rfl,rfl,rfl,rfl,rfl,rfl,rfl⟩

theorem tcpWriteFinish_rx {c' : Conn} {wake : Bool} (h : tcpWriteFinish c wake = .ok (c',d)) :
    Keeps c c' ∧ c.txExclusive = true ∧ (wake = true → .wakeWriters ∈ d) := by
  rw [tcpWriteFinish] at h
  obtain ⟨_,hassert,h⟩ := bind_eq_ok h
  simp only [tcpConnAck,Bool.false_eq_true,if_false] at h
  generalize hu : (ite (c.rx.rcvNxt = c.txLastAck) _ _ : Conn) = u at h
  have hk : Keeps c u := by
    rw [← hu]
    split <;> exact ⟨rfl,rfl,rfl,rfl,rfl,rfl,rfl⟩
  cases h
  rw [TcpSend.writeCatchUp_keeps]
  refine ⟨hk.trans ⟨rfl,rfl,rfl,rfl,rfl,rfl,rfl⟩,assertThat_eq_ok hassert,?_⟩
  rintro rfl
  simp

theorem Inv.parkTx {k : Call} (h : Inv s) (hpos : s.pos i = .entry k)
    (hk : (Pos.entry k).arriving = false ∧ (Pos.parked k).waitsTx = true)
    (hw : s.conn.txExclusive = true ∨ tcpIsSndFull s.conn = true) : Kept s (s.parkTx i k) i := by
  have hmove : Kept s (s.move i s.conn (.parked k)) i := h.stay (by grind -linarith)
  obtain ⟨⟨⟨hshared,hthread⟩,hfed⟩,htx,hrx⟩ := hmove
  refine ⟨⟨⟨?_,fun j => ?_⟩,fun _ => hw,hfed.readers,hfed.closed⟩,htx,hrx⟩
  · obtain ⟨ho,hn,hf,hf'⟩ := hshared
    exact ⟨ho,hn,hf,hf'⟩
  · have hj := hthread j
    simp only [Sys.move] at hj
    constructor <;> simp only [Sys.parkTx,Sys.move] <;> grind -linarith

theorem Inv.beginWrite {k : Call} {wake : Bool} {data : List UInt8} (h : Inv s)
    (hpos : s.pos i = .entry k) (hk : (Pos.entry k).arriving = false)
    (hfree : writeBlocked s.conn = false) : Kept s (s.beginWrite i wake data) i := by
  unfold Sys.beginWrite writeStart
  by_cases hclosed : s.conn.txClosed = true
  · rw [if_pos hclosed]
    exact h.stay (by grind -linarith)
  · rw [if_neg hclosed]
    have hex : s.conn.txExclusive = false := by
      simp only [writeBlocked,Bool.and_eq_false_iff,Bool.or_eq_false_iff,Bool.not_eq_false'] at hfree
      exact (hfree.resolve_left hclosed).1.2
    exact h.sent ⟨rfl,rfl,rfl,rfl,rfl,rfl,rfl⟩ rfl (by grind -linarith) (by grind -linarith)
      fun _ => Or.inl rfl

theorem Inv.beginResend {k : Call} (h : Inv s) (hpos : s.pos i = .entry k)
    (hk : (Pos.entry k).arriving = false) : Kept s (s.beginResend i) i := by
  unfold Sys.beginResend retransmitStart
  by_cases hfree : (s.conn.txExclusive || s.conn.state = .closed) = true
  · rw [if_pos hfree]
    exact h.stay (by grind -linarith)
  · rw [if_neg hfree]
    exact h.sent ⟨rfl,rfl,rfl,rfl,rfl,rfl,rfl⟩ rfl (by grind -linarith) (by grind -linarith)
      fun _ => Or.inl rfl

theorem Inv.round {wake : Bool} {rest : List UInt8} {alloc : Bool} (h : Inv s)
    (hpos : s.pos i = .sending wake rest) : Kept s (s.round i wake rest alloc) i := by
  have hs := h.shared
  have hi := h.thread i
  unfold Sys.round
  split
  · exact h.stay (by grind -linarith)
  · rename_i c m rest' hfill
    obtain ⟨hex,hstate⟩ := TcpSend.txFill_keeps hfill
    obtain ⟨hex',hstate'⟩ := TcpSend.txEmit_keeps c m rest' true
    exact h.sent (txEmit_rx hfill) (hstate'.trans hstate) (by grind -linarith) (by grind -linarith)
      fun _ => Or.inl (by grind -linarith)

theorem Inv.resend {j : ℕ} {go inPlace : Bool} (h : Inv s) (hpos : s.pos i = .resending j)
    (hstep : s.resend i j go inPlace = .ok t) : Kept s t i := by
  have hs := h.shared
  have hi := h.thread i
  unfold Sys.resend at hstep
  split at hstep
  · cases hstep
    exact h.stay (by grind -linarith)
  · obtain ⟨m,-,hstep⟩ := bind_eq_ok hstep
    cases hstep
    exact h.sent ⟨rfl,rfl,rfl,rfl,rfl,rfl,rfl⟩ rfl (by grind -linarith) (by grind -linarith)
      fun _ => Or.inl (by grind -linarith)

theorem Inv.finish {wake : Bool} (h : Inv s) (hpos : s.pos i = .finishing wake)
    (hnone : wake = false → s.txWq = []) (hstep : s.finish i wake = .ok t) : Kept s t i := by
  obtain ⟨⟨c,d⟩,hfinish,hstep⟩ := bind_eq_ok hstep
  cases hstep
  obtain ⟨hk,-,hwake⟩ := tcpWriteFinish_rx hfinish
  have hfin := TcpSend.tcpWriteFinish_finished hfinish
  have hi := h.thread i
  have hrx := hk.rxExclusive
  have htx := hfin.txExclusive
  have ho : Opened c := by
    rw [Opened,hfin.state]
    exact h.shared.opened
  have hw := wake_woken
    (h.toBase.move (i:=i) (p:=.idle) (by grind -linarith) ho (by grind -linarith)
      (by grind -linarith)) d
  have hconn : (((s.move i c .idle).wake d).conn) = c := hw.conn
  refine ⟨⟨hw.base,fun hne => ?_,fun hne hpush => ?_,fun hc => ?_⟩,by grind -linarith,
    by grind -linarith⟩
  · cases wake with
    | true => exact absurd (hwake rfl) (hw.writers hne).2
    | false => exact absurd (hnone rfl) (hw.writers hne).1
  · rw [hconn,hk.rx] at hpush
    rw [hconn]
    refine (h.readers (hw.readers hne).1 hpush).imp (fun hex => hrx.trans hex) ?_
    rintro ⟨j,hj⟩
    refine hw.arriving ⟨j,?_⟩
    simp only [Sys.move]
    grind -linarith
  · by_contra hne
    rw [hconn] at hc
    exact (hw.readers hne).1 (h.closed (hk.rxClosed.symm.trans hc))

/-! #### Readers -/

theorem Inv.parkRx {len : ℕ} (h : Inv s) (hpos : s.pos i = .entry (.read len))
    (hblocked : tcpReadWait s.conn len = none) : Kept s (s.parkRx i (.read len)) i := by
  have hs := h.shared
  have hi := h.thread i
  have hwaits : s.conn.rxClosed = false ∧
      (s.conn.rxExclusive = true ∨ s.conn.rx.rxq = []) := by
    unfold tcpReadWait at hblocked
    split at hblocked
    · rename_i hb
      simpa using hb
    · split at hblocked <;> cases hblocked
  refine ⟨⟨⟨?_,fun j => ?_⟩,h.writers,fun _ hpush => ?_,fun hc => ?_⟩,?_,?_⟩
  · constructor <;> simp only [Sys.parkRx,Sys.move] <;> grind -linarith [nodup_append]
  · have hj := h.thread j
    constructor <;> simp only [Sys.parkRx,Sys.move] <;> grind -linarith
  · refine hwaits.2.imp_right fun hq => ?_
    change pushed s.conn.rx.rxq = true at hpush
    rw [hq] at hpush
    cases hpush
  all_goals
    simp only [Sys.parkRx,Sys.move] at *
    grind -linarith

/-- The first section of a read that takes buffers; `g` is where the thread goes on. -/
theorem Inv.took {k : Call} {len : ℕ} {g : Option ℕ → Pos} (h : Inv s) (hpos : s.pos i = .entry k)
    (hat : ∀ o, (g o).reads = o.isSome ∧ (g o).sends = false)
    (hopen : s.conn.rxClosed = false) (hfree : s.conn.rxExclusive = false)
    (hends : s.rxWq = [] ∨ endsBetween len s.conn.rx.rxq = false) :
    Kept s (s.took i (takeText s.conn len).1 (if (takeText s.conn len).2.ret ≤ 0 then .idle
      else g (takeText s.conn len).2.cpylen)) i := by
  have hloop := hends.imp_right fun hends => takeLoop_ends s.conn.rx.rxq (Nat.zero_le len)
    fun n hn heq => by
      simp only [endsBetween,any_eq_false,mem_range,decide_eq_true_eq] at hends
      exact hends n hn (by omega)
  have hof := takeLoop_of len s.conn.rx.rxq 0 (Nat.zero_le _)
  rw [takeText_snd,takeText_fst]
  generalize takeLoop len s.conn.rx.rxq 0 = k at hloop hof
  dsimp only
  generalize hpdef : (if (k.readlen : ℤ) ≤ 0 then Pos.idle else g (if k.inside then
    some (len-(k.whole.flatMap Mbuf.data).length) else none)) = p
  generalize hcdef : ({ s.conn with
    rxClosed := s.conn.rxClosed || k.sawFin
    rxExclusive := s.conn.rxExclusive || k.inside
    rx := { s.conn.rx with
      rxq := k.left
      rcvWnd := s.conn.rx.rcvWnd+BitVec.ofNat 32 k.readlen } } : Conn) = c
  have hp : p.reads = k.inside ∧ p.sends = false := by
    rw [← hpdef]
    cases hin : k.inside with
    | true =>
      obtain ⟨hlen,m,rest,-,hlo,-⟩ := hof.inside hin
      rw [if_neg (by omega)]
      exact hat _
    | false =>
      split
      · exact ⟨rfl,rfl⟩
      · exact hat _
  have hc : c.txExclusive = s.conn.txExclusive ∧ c.rxExclusive = k.inside ∧ c.rx.rxq = k.left ∧
      c.rxClosed = k.sawFin ∧ tcpIsSndFull c = tcpIsSndFull s.conn := by
    subst hcdef
    simp [hopen,hfree,tcpIsSndFull]
  obtain ⟨hex,hex',hleft,hclosed,hfull⟩ := hc
  have htx : Handles (s.pos i).sends p.sends s.conn.txExclusive c.txExclusive := by grind -linarith
  have hrx : Handles (s.pos i).reads p.reads s.conn.rxExclusive c.rxExclusive := by grind -linarith
  have hbase := h.toBase.move (by grind -linarith) (hcdef ▸ h.shared.opened : Opened c) htx hrx
  have hwriters : s.txWq ≠ [] → c.txExclusive = true ∨ tcpIsSndFull c = true := by
    rw [hex,hfull]
    exact h.writers
  unfold Sys.took
  rw [hclosed,hopen,Bool.not_false,Bool.and_true]
  cases hfin : k.sawFin with
  | true =>
    rw [if_pos rfl]
    exact (wake_woken hbase [.wakeReaders]).allReaders h.toBase hwriters htx hrx
  | false =>
    have hi := h.thread i
    rw [if_neg Bool.false_ne_true]
    refine ⟨⟨hbase,hwriters,fun hne hpush => Or.inl ?_,fun hc => ?_⟩,?_,?_⟩
    · change s.rxWq ≠ [] at hne
      change pushed c.rx.rxq = true at hpush
      change c.rxExclusive = true
      have hnil : pushed [] = false := rfl
      grind -linarith
    all_goals
      simp only [Sys.move] at *
      grind -linarith

theorem tcpReadFinish_tx {c' : Conn} {n : ℕ} (h : tcpReadFinish c n = .ok c') :
    SendKeeps c c' ∧ c'.sndWnd = c.sndWnd ∧ c'.state = c.state ∧ c'.rxExclusive = false := by
  unfold tcpReadFinish at h
  split at h
  · cases h
    exact ⟨⟨rfl,rfl,rfl,rfl,rfl,rfl,rfl,rfl,rfl⟩,rfl,rfl,rfl⟩
  · obtain ⟨_,-,h⟩ := bind_eq_ok h
    cases h
    exact ⟨⟨rfl,rfl,rfl,rfl,rfl,rfl,rfl,rfl,rfl⟩,rfl,rfl,rfl⟩

/-- A step of a thread while no other one waits to read. -/
theorem Inv.alone (h : Inv s) (hempty : s.rxWq = []) (hbase : Base (s.move i c p))
    (hwriters : s.txWq ≠ [] → c.txExclusive = true ∨ tcpIsSndFull c = true)
    (htx : Handles (s.pos i).sends p.sends s.conn.txExclusive c.txExclusive)
    (hrx : Handles (s.pos i).reads p.reads s.conn.rxExclusive c.rxExclusive) :
    Kept s (s.move i c p) i := by
  have hi := h.thread i
  refine ⟨⟨hbase,hwriters,fun hne => absurd hempty hne,fun _ => hempty⟩,?_,?_⟩
  all_goals
    simp only [Sys.move]
    grind -linarith

/-- The flag is given back, to readers that are woken or to nobody. -/
theorem Inv.gaveBack {n : ℕ} (h : Inv s) (hreads : (s.pos i).reads = true)
    (hfinish : tcpReadFinish s.conn n = .ok c) :
    Kept s ((s.move i c .idle).wake [.wakeReaders]) i ∧
      (s.rxWq = [] → Kept s (s.move i c .idle) i) := by
  obtain ⟨hk,hwnd,hstate,hex⟩ := tcpReadFinish_tx hfinish
  have htx := hk.txExclusive
  have ho : Opened c := by
    rw [Opened,hstate]
    exact h.shared.opened
  have hpos : (s.pos i).waitsTx = false ∧ (s.pos i).waitsRx = false ∧ (s.pos i).sends = false := by
    cases hp : s.pos i <;> first | exact ⟨rfl,rfl,rfl⟩ | (rw [hp] at hreads; cases hreads)
  have hsends : Handles (s.pos i).sends Pos.idle.sends s.conn.txExclusive c.txExclusive := by
    grind -linarith
  have hread : Handles (s.pos i).reads Pos.idle.reads s.conn.rxExclusive c.rxExclusive := by
    grind -linarith
  have hbase := h.toBase.move ⟨hpos.1,hpos.2.1⟩ ho hsends hread
  have hwriters : s.txWq ≠ [] → c.txExclusive = true ∨ tcpIsSndFull c = true := by
    rw [tcpIsSndFull_congr hk hwnd,htx]
    exact h.writers
  exact ⟨(wake_woken hbase _).allReaders h.toBase hwriters hsends hread,
    fun hempty => h.alone hempty hbase hwriters hsends hread⟩

theorem Inv.readFinish {cpylen : Option ℕ} (h : Inv s) (hpos : s.pos i = .reading cpylen)
    (hstep : s.readFinish i cpylen = .ok t) : Kept s t i := by
  cases cpylen with
  | none =>
    cases hstep
    exact h.stay (by grind -linarith)
  | some n =>
    obtain ⟨c,hfinish,hstep⟩ := bind_eq_ok hstep
    cases hstep
    exact (h.gaveBack (by rw [hpos]; rfl) hfinish).1

theorem Inv.tryReadFinish {cpylen : Option ℕ} (h : Inv s) (hpos : s.pos i = .tryReading cpylen)
    (hok : if cpylen.isSome then s.rxWq = [] else s.conn.rxExclusive = false)
    (hstep : s.tryReadFinish i cpylen = .ok t) : Kept s t i := by
  cases cpylen with
  | none =>
    cases hstep
    have hsame : tcpTryReadFinish s.conn = s.conn := by
      have hok : s.conn.rxExclusive = false := hok
      rw [tcpTryReadFinish,← hok]
    rw [hsame]
    exact h.stay (by grind -linarith)
  | some n =>
    obtain ⟨c,hfinish,hstep⟩ := bind_eq_ok hstep
    cases hstep
    exact (h.gaveBack (by rw [hpos]; rfl) hfinish).2 hok

theorem took_same : s.took i s.conn p = s.move i s.conn p := by simp [Sys.took]

theorem Inv.enterRead {len : ℕ} (h : Inv s) (hpos : s.pos i = .entry (.read len))
    (hends : s.rxWq = [] ∨ endsBetween len s.conn.rx.rxq = false) :
    Kept s (s.enter i (.read len)) i := by
  rw [Sys.enter]
  split
  · exact h.parkRx hpos ‹_›
  · rename_i c r hread
    unfold tcpReadWait at hread
    split at hread
    · cases hread
    rename_i hfree
    split at hread
    · rename_i hclosed
      cases hread
      rw [took_same]
      have hp : ∀ {q : Prop} [Decidable q], (if q then Pos.idle else .reading none).sends = false ∧
          (if q then Pos.idle else .reading none).reads = false := by
        intro q _
        split <;> exact ⟨rfl,rfl⟩
      exact h.alone (h.closed hclosed) (h.toBase.move (by grind -linarith) h.shared.opened
          (by grind -linarith) (by grind -linarith)) h.writers (by grind -linarith)
        (by grind -linarith)
    · rename_i hopen
      rw [Bool.not_eq_true] at hopen
      have hex : s.conn.rxExclusive = false := by
        simp only [hopen,Bool.not_false,Bool.true_and,Bool.or_eq_true,not_or,Bool.not_eq_true]
          at hfree
        exact hfree.1
      have hkept := h.took (g:=.reading) hpos (fun o => by cases o <;> exact ⟨rfl,rfl⟩) hopen
        hex hends
      rw [Option.some.inj hread] at hkept
      exact hkept

theorem Inv.enterTryRead {len : ℕ} (h : Inv s) (hpos : s.pos i = .entry (.tryRead len))
    (hends : s.rxWq = [] ∨ endsBetween len s.conn.rx.rxq = false) :
    Kept s (s.enter i (.tryRead len)) i := by
  have hout : ∀ {q : Prop} [Decidable q], Kept s (s.took i s.conn (if q then Pos.idle
      else .tryReading none)) i := by
    intro q _
    rw [took_same]
    exact h.stay (by split <;> grind -linarith)
  rw [Sys.enter,tcpReadNowait]
  by_cases hbusy : (s.conn.rxExclusive || s.conn.rx.rxq.isEmpty) = true
  · rw [if_pos hbusy]
    exact hout
  · rw [if_neg hbusy]
    by_cases hclosed : s.conn.rxClosed = true
    · rw [if_pos hclosed]
      exact hout
    · rw [if_neg hclosed]
      rw [Bool.not_eq_true] at hclosed
      have hex : s.conn.rxExclusive = false := by
        simp only [Bool.or_eq_true,not_or,Bool.not_eq_true] at hbusy
        exact hbusy.1
      exact h.took (g:=.tryReading) hpos (fun o => by cases o <;> exact ⟨rfl,rfl⟩) hclosed
        hex hends

/-! #### Every run -/

theorem Inv.enter {k : Call} (h : Inv s) (hpos : s.pos i = .entry k)
    (hends : ∀ len, k = .read len ∨ k = .tryRead len →
      s.rxWq = [] ∨ endsBetween len s.conn.rx.rxq = false) : Kept s (s.enter i k) i := by
  cases k with
  | write data =>
    rw [Sys.enter]
    split
    · rename_i hblocked
      refine h.parkTx hpos ⟨rfl,rfl⟩ ?_
      simp only [writeBlocked,Bool.and_eq_true,Bool.or_eq_true,decide_eq_true_eq] at hblocked
      rcases hblocked.2 with (hearly | hex) | hfull
      · exact absurd h.shared.opened (not_le.mpr hearly)
      · exact Or.inl hex
      · exact Or.inr hfull
    · rename_i hfree
      exact h.beginWrite hpos rfl (Bool.eq_false_of_not_eq_true hfree)
  | tryWrite data =>
    rw [Sys.enter]
    split
    · exact h.stay (by grind -linarith)
    · rename_i hfree
      exact h.beginWrite hpos rfl (Bool.eq_false_of_not_eq_true hfree)
  | retransmit =>
    rw [Sys.enter]
    split
    · rename_i hbusy
      exact h.parkTx hpos ⟨rfl,rfl⟩ (Or.inl (Bool.and_eq_true_iff.mp hbusy).1)
    · exact h.beginResend hpos rfl
  | retransmitNowait =>
    rw [Sys.enter]
    split
    · exact h.stay (by grind -linarith)
    · exact h.beginResend hpos rfl
  | read len => exact h.enterRead hpos (hends len (Or.inl rfl))
  | tryRead len => exact h.enterTryRead hpos (hends len (Or.inr rfl))

theorem Inv.act {go inPlace : Bool} (h : Inv s) (hok : s.regular (.act i go inPlace) = true)
    (hstep : s.attempt (.act i go inPlace) = .ok (some t)) : Kept s t i := by
  simp only [Sys.attempt] at hstep
  simp only [Sys.regular] at hok
  cases hpos : s.pos i with
  | idle | parked k =>
    rw [hpos] at hstep
    cases hstep
  | entry k =>
    rw [hpos] at hstep hok
    cases hstep
    refine h.enter hpos ?_
    rintro len (rfl | rfl) <;> simpa using hok
  | sending wake rest =>
    rw [hpos] at hstep
    cases hstep
    exact h.round hpos
  | finishing wake =>
    rw [hpos] at hstep hok
    refine h.finish hpos ?_ (some_eq_ok hstep)
    rintro rfl
    simpa using hok
  | resending j =>
    rw [hpos] at hstep
    exact h.resend hpos (some_eq_ok hstep)
  | reading cpylen =>
    rw [hpos] at hstep
    exact h.readFinish hpos (some_eq_ok hstep)
  | tryReading cpylen =>
    rw [hpos] at hstep hok
    refine h.tryReadFinish hpos ?_ (some_eq_ok hstep)
    cases cpylen <;> simpa using hok

theorem Inv.call {k : Call} (h : Inv s) (hpos : s.pos i = .idle) :
    Inv (s.move i s.conn (.entry k)) :=
  (h.stay (p:=.entry k) (by grind -linarith)).inv

theorem step_eq_some {e : Event ι} : s.step e = some t ↔ s.attempt e = .ok (some t) :=
  toOption_bind_eq_some

theorem step_inv {e : Event ι} (h : Inv s) (hok : s.regular e = true) (hstep : s.step e = some t) :
    Inv t := by
  rw [step_eq_some] at hstep
  cases e with
  | call i k =>
    simp only [Sys.attempt] at hstep
    split at hstep
    · cases hstep
      exact h.call ‹_›
    · cases hstep
  | act i go inPlace => exact (h.act hok hstep).inv
  | recv env p =>
    obtain ⟨⟨c,d⟩,hrx,hstep⟩ := bind_eq_ok hstep
    cases hstep
    exact h.recv hrx

omit [DecidableEq ι] in
theorem inv_start {c : Conn} (hc : c.state = .established) (htx : c.txExclusive = false)
    (hrx : c.rxExclusive = false) : Inv (.start c : Sys ι) where
  shared := ⟨(congrArg State.ctorIdx hc).ge,nodup_nil,htx,hrx⟩
  thread i := by constructor <;> simp [Sys.start,Pos.sends,Pos.reads]
  writers hne := absurd rfl hne
  readers hne := absurd rfl hne
  closed _ := rfl

end Invariant

end Vessel.TcpWake
