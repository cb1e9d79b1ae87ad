import Vessel.TcpRun
import Vessel.TcpAck
import Mathlib.Data.BitVec
import Mathlib.Tactic.Abel

/-! The receive window as an account.
Text that is taken moves from `rcv_wnd` to `rxq`, and a read moves it back.  Nothing here depends
on where the segments stand. -/
namespace Vessel.Tcp

open Serial List Option

/-! ### Text -/

/-- The numbers of a buffer are those of its text and its FIN; `fin` says whether it may have
one. -/
structure Mbuf.Fits (fin : Bool) (m : Mbuf) : Prop where
  size : m.data.length+m.isFin.toNat = (m.segEnd-m.segSeq).toNat
  clean : fin = false → m.isFin = false

/-- What text does: buffers are appended at the cost of the window, and its edge stays. -/
structure Fills (fin : Bool) (r r' : Ingress) (new : List Mbuf) : Prop where
  rxq : r'.rxq = r.rxq++new
  window : r'.rcvWnd.toNat+(new.flatMap Mbuf.data).length ≤ r.rcvWnd.toNat
  whole : fin = false → r'.rcvWnd.toNat+(new.flatMap Mbuf.data).length = r.rcvWnd.toNat
  edge : r'.rcvNxt+r'.rcvWnd = r.rcvNxt+r.rcvWnd

section Text

variable {fin : Bool} {r r' r'' : Ingress} {m m' : Mbuf} {new new' : List Mbuf}

theorem Fills.trans (h : Fills fin r r' new) (h' : Fills fin r' r'' new') :
    Fills fin r r'' (new++new') where
  rxq := by rw [h'.rxq,h.rxq,append_assoc]
  window := by
    have := h.window
    have := h'.window
    rw [flatMap_append,length_append]
    omega
  whole hfin := by
    have := h.whole hfin
    have := h'.whole hfin
    rw [flatMap_append,length_append]
    omega
  edge := h'.edge.trans h.edge

theorem eq_of_wraps {a b : BitVec 32} (hle : wrapsLte a b = true) (hlt : wrapsLt a b = false) :
    a = b := by
  rw [wrapsLte,decide_eq_true_eq] at hle
  rw [wrapsLt,decide_eq_false_iff_not] at hlt
  have hzero : (a-b).toInt = (0 : BitVec 32).toInt := by
    rw [BitVec.ofNat_eq_ofNat,BitVec.toInt_zero]
    omega
  exact sub_eq_zero.mp (BitVec.eq_of_toInt_eq hzero)

theorem mbufPull_eq {len : ℕ} (h : mbufPull m len = .ok m') :
    len ≤ m.data.length ∧ m' = { m with data := m.data.drop len } := by
  unfold mbufPull at h
  split at h
  · cases h
  · exact ⟨by omega,(Except.ok.inj h).symm⟩

theorem mbufTrim_eq {len : ℕ} (h : mbufTrim m len = .ok m') :
    len ≤ m.data.length ∧ m' = { m with data := m.data.take (m.data.length-len) } := by
  unfold mbufTrim at h
  split at h
  · cases h
  · exact ⟨by omega,(Except.ok.inj h).symm⟩

theorem toNat_sub_sub {x y : BitVec 32} (h : y.toNat ≤ x.toNat) :
    (x-y).toNat = x.toNat-y.toNat :=
  BitVec.toNat_sub_of_le (BitVec.le_def.mpr h)

theorem clipHead_fits (h : clipHead r m = .ok m') (hm : m.Fits fin)
    (hle : wrapsLte m.segSeq r.rcvNxt = true) :
    m'.Fits fin ∧ m'.segSeq = r.rcvNxt ∧ m'.flags = m.flags := by
  unfold clipHead at h
  split at h
  · obtain ⟨m₁,hpull,h⟩ := bind_eq_ok h
    obtain ⟨hlen,rfl⟩ := mbufPull_eq hpull
    obtain rfl := Except.ok.inj h
    have hsize := hm.size
    have hseq : m.segSeq+(r.rcvNxt-m.segSeq) = r.rcvNxt := by
      rw [BitVec.add_comm,BitVec.sub_add_cancel]
    have hspan : (m.segEnd-r.rcvNxt).toNat =
        (m.segEnd-m.segSeq).toNat-(r.rcvNxt-m.segSeq).toNat := by
      rw [← sub_sub_sub_cancel_right m.segEnd r.rcvNxt m.segSeq]
      exact toNat_sub_sub (by omega)
    refine ⟨⟨?_,hm.clean⟩,hseq,rfl⟩
    dsimp only [Mbuf.isFin] at hsize ⊢
    rw [hseq,hspan,length_drop]
    omega
  · obtain rfl := Except.ok.inj h
    exact ⟨hm,eq_of_wraps hle (Bool.eq_false_of_not_eq_true ‹_›),rfl⟩

theorem clipTail_fits (h : clipTail r m = .ok m') (hm : m.Fits fin) :
    m'.Fits fin ∧ m'.segSeq = m.segSeq ∧ m'.flags = m.flags := by
  unfold clipTail at h
  split at h
  · obtain ⟨m₁,htrim,h⟩ := bind_eq_ok h
    obtain ⟨hlen,rfl⟩ := mbufTrim_eq htrim
    obtain rfl := Except.ok.inj h
    have hsize := hm.size
    have hspan : (r.rcvNxt+r.rcvWnd-m.segSeq).toNat =
        (m.segEnd-m.segSeq).toNat-(m.segEnd-(r.rcvNxt+r.rcvWnd)).toNat := by
      rw [← sub_sub_sub_cancel_left m.segSeq (r.rcvNxt+r.rcvWnd) m.segEnd]
      exact toNat_sub_sub (by omega)
    refine ⟨⟨?_,hm.clean⟩,rfl,rfl⟩
    dsimp only [Mbuf.isFin] at hsize ⊢
    rw [hspan,length_take]
    omega
  · obtain rfl := Except.ok.inj h
    exact ⟨hm,rfl,rfl⟩

theorem assertThat_eq {b : Bool} {u : Unit} (h : assertThat b = .ok u) : b = true := by
  unfold assertThat at h
  split at h
  · assumption
  · cases h

theorem tcpRxAppendText_fills (h : tcpRxAppendText r m = .ok r') (hm : m.Fits fin) :
    ∃ m', Fills fin r r' [m'] ∧ m'.isFin = m.isFin ∧ r'.rxqOoo = r.rxqOoo := by
  obtain ⟨_,hle,h⟩ := bind_eq_ok h
  obtain ⟨_,-,h⟩ := bind_eq_ok h
  obtain ⟨m₁,hhead,h⟩ := bind_eq_ok h
  obtain ⟨m₂,htail,h⟩ := bind_eq_ok h
  obtain ⟨_,hroom,h⟩ := bind_eq_ok h
  obtain rfl := Except.ok.inj h
  obtain ⟨hfits,hseq,hflags⟩ := clipHead_fits hhead hm (assertThat_eq hle)
  obtain ⟨hfits,hseq',hflags'⟩ := clipTail_fits htail hfits
  have hroom : (m₂.segEnd-m₂.segSeq).toNat ≤ r.rcvWnd.toNat :=
    BitVec.le_def.mp (of_decide_eq_true (assertThat_eq hroom))
  have hwnd := toNat_sub_sub hroom
  have hsize := hfits.size
  refine ⟨m₂,⟨rfl,?_,fun hfin => ?_,?_⟩,?_,rfl⟩
  · simp only [flatMap_singleton]
    omega
  · have hclean := hfits.clean hfin
    rw [hclean,Bool.toNat_false] at hsize
    simp only [flatMap_singleton]
    omega
  · dsimp only
    rw [← hseq,← hseq']
    abel
  · rw [Mbuf.isFin,Mbuf.isFin,hflags',hflags]

theorem drain_fills {q : List Mbuf} {t t' : Text} (h : drain q t = .ok t')
    (hq : ∀ m ∈ q, m.Fits fin) :
    ∃ new, Fills fin t.rx t'.rx new ∧ (∀ m ∈ t'.rx.rxqOoo, m ∈ q) ∧
      (new = [] → t'.rx.rcvWnd = t.rx.rcvWnd ∧ t'.wake = t.wake) ∧
      (fin = false → t'.fin = t.fin) := by
  induction q generalizing t with
  | nil =>
    obtain rfl := Except.ok.inj h
    refine ⟨[],⟨by simp,by simp,by simp,rfl⟩,by simp,fun _ => ⟨rfl,rfl⟩,fun _ => rfl⟩
  | cons pos rest ih =>
    have hrest : ∀ m ∈ rest, m.Fits fin := fun m hm => hq m (mem_cons_of_mem _ hm)
    rw [drain] at h
    split at h
    · obtain ⟨new,hfills,hooo,hnil,hfin⟩ := ih h hrest
      exact ⟨new,⟨hfills.rxq,hfills.window,hfills.whole,hfills.edge⟩,
        fun m hm => mem_cons_of_mem _ (hooo m hm),hnil,hfin⟩
    · split at h
      · obtain rfl := Except.ok.inj h
        exact ⟨[],⟨by simp,by simp,by simp,rfl⟩,fun m hm => hm,fun _ => ⟨rfl,rfl⟩,fun _ => rfl⟩
      · obtain ⟨rx,happend,h⟩ := bind_eq_ok h
        have hpos := hq pos mem_cons_self
        obtain ⟨m',hfills,-,-⟩ := tcpRxAppendText_fills happend hpos
        obtain ⟨new,hfills',hooo,-,hfin⟩ := ih h hrest
        have hfirst : Fills fin t.rx rx [m'] :=
          ⟨hfills.rxq,hfills.window,hfills.whole,hfills.edge⟩
        refine ⟨[m']++new,hfirst.trans hfills',fun m hm => mem_cons_of_mem _ (hooo m hm),
          fun hnil => absurd hnil (by simp),fun hfalse => ?_⟩
        rw [hfin hfalse]
        have hclean : has pos.flags tcpFin = false := hpos.clean hfalse
        simp [hclean]

theorem oooInsertRev_mem {q q' : List Mbuf} (h : oooInsertRev m q = some q') :
    ∀ x ∈ q', x = m ∨ x ∈ q := by
  induction q generalizing q' with
  | nil =>
    obtain rfl := some.inj h
    simp
  | cons pos rest ih =>
    rw [oooInsertRev] at h
    split at h
    · obtain rfl := some.inj h
      intro x hx
      simpa using hx
    · split at h
      · cases h
      · obtain ⟨q₁,hq₁,rfl⟩ := map_eq_some_iff.mp h
        intro x hx
        rcases mem_cons.mp hx with rfl | hx
        · exact .inr mem_cons_self
        · exact (ih hq₁ x hx).imp_right (mem_cons_of_mem _)

theorem oooInsert_mem {q q' : List Mbuf} (h : oooInsert m q = some q') :
    ∀ x ∈ q', x = m ∨ x ∈ q := by
  obtain ⟨q₁,hq₁,rfl⟩ := map_eq_some_iff.mp h
  intro x hx
  simpa using oooInsertRev_mem hq₁ x (mem_reverse.mp hx)

theorem drainQueue_fills {t t' : Text} (h : drainQueue t = .ok t')
    (hq : ∀ m ∈ t.rx.rxqOoo, m.Fits fin) :
    ∃ new, Fills fin t.rx t'.rx new ∧ (∀ m ∈ t'.rx.rxqOoo, m.Fits fin) ∧
      (new = [] → t'.wake = (t.wake || t.rx.rcvWnd = 0)) ∧ (fin = false → t'.fin = t.fin) := by
  obtain ⟨t₁,hdrain,h⟩ := bind_eq_ok h
  obtain rfl := Except.ok.inj h
  obtain ⟨new,hfills,hooo,hnil,hfin⟩ := drain_fills hdrain hq
  refine ⟨new,hfills,fun m hm => hq m (hooo m hm),fun hnew => ?_,hfin⟩
  obtain ⟨hwnd,hwake⟩ := hnil hnew
  simp only [hwnd,hwake]

theorem tcpRxText_fills {t : Text} (h : tcpRxText r m = .ok (some t)) (hm : m.Fits fin)
    (hq : ∀ x ∈ r.rxqOoo, x.Fits fin) :
    ∃ new, Fills fin r t.rx new ∧ (∀ x ∈ t.rx.rxqOoo, x.Fits fin) ∧
      (t.wake = true → t.rx.rxq ≠ []) ∧ (fin = false → t.fin = false) := by
  unfold tcpRxText at h
  split at h
  · cases h
  rename_i hopen
  split at h
  · obtain ⟨rx,happend,h⟩ := bind_eq_ok h
    obtain ⟨t',hdrain,ht⟩ := map_eq_ok h
    obtain rfl := some.inj ht
    obtain ⟨m',hfills,-,hooo⟩ := tcpRxAppendText_fills happend hm
    have hqueue : ∀ x ∈ rx.rxqOoo, x.Fits fin := hooo ▸ hq
    obtain ⟨new,hfills',hfits,-,hfin⟩ := drainQueue_fills hdrain hqueue
    have hall := hfills.trans hfills'
    refine ⟨[m']++new,hall,hfits,fun _ hnil => ?_,fun hfalse => ?_⟩
    · rw [hall.rxq] at hnil
      simp at hnil
    · have hclean : has m.flags tcpFin = false := hm.clean hfalse
      rw [hfin hfalse]
      simp [hclean]
  · split at h
    · cases h
    · cases hins : oooInsert m r.rxqOoo with
      | none =>
        rw [hins] at h
        cases h
      | some q =>
        rw [hins] at h
        obtain ⟨t',hdrain,ht⟩ := map_eq_ok h
        obtain rfl := some.inj ht
        have hqueue : ∀ x ∈ q, x.Fits fin := by
          intro x hx
          rcases oooInsert_mem hins x hx with rfl | hx
          · exact hm
          · exact hq x hx
        obtain ⟨new,hfills,hfits,hnil,hfin⟩ := drainQueue_fills hdrain hqueue
        refine ⟨new,⟨hfills.rxq,hfills.window,hfills.whole,hfills.edge⟩,hfits,
          fun hwake hempty => ?_,hfin⟩
        rw [hfills.rxq,append_eq_nil_iff] at hempty
        rw [hnil hempty.2,Bool.false_or,decide_eq_true_eq] at hwake
        exact hopen hwake

end Text

/-! ### Packets -/

/-- All that a packet does to the receive side of a connection past its SYN. -/
inductive Intake (fin : Bool) (c : Conn) : Conn → Prop
  | quiet {c' : Conn} (keeps : Keeps c c') (later : Later c.state c'.state) : Intake fin c c'
  | failed {c' : Conn} (failed : FailedFrom c c') : Intake fin c c'
  | filled {c' : Conn} {new : List Mbuf} (before : ¬(finSeen c.state = true ∨ c.state = .closed))
    (fills : Fills fin c.rx c'.rx new) (queued : ∀ m ∈ c'.rx.rxqOoo, m.Fits fin)
    (keeps : Keeps { c with rx := c'.rx } c') (past : c'.state ≠ .synSent) : Intake fin c c'

section Packets

variable {fin : Bool} {c c' c'' : Conn} {env : Env} {p : Packet} {d : List Deferred}

theorem Intake.keeps (h : Intake fin c c') (hk : Keeps c' c'') (hs : c''.state = c'.state) :
    Intake fin c c'' := by
  cases h with
  | quiet keeps later => exact .quiet (keeps.trans hk) (hs ▸ later)
  | failed failed => exact .failed (failed.keeps hk hs)
  | filled before fills queued keeps past =>
    have hrx := hk.rx
    refine .filled before (hrx ▸ fills) (hrx ▸ queued) ?_ (hs ▸ past)
    rw [hrx]
    exact keeps.trans hk

theorem Packet.Passes.fits (h : p.Passes c) (hfin : fin = false → has p.flags tcpFin = false) :
    p.segment.Fits fin := by
  obtain ⟨hspan,-⟩ := h.spanWord_eq
  have hword : p.segment.segEnd-p.segment.segSeq = p.mbuf.spanWord := add_sub_cancel_left _ _
  refine ⟨?_,hfin⟩
  rw [hword]
  rw [Mbuf.span] at hspan
  cases hf : p.segment.isFin with
  | false =>
    rw [hf,if_neg Bool.false_ne_true] at hspan
    rw [Bool.toNat_false]
    omega
  | true =>
    rw [hf,if_pos rfl] at hspan
    rw [Bool.toNat_true]
    omega

theorem texts_intake {res : Except Abort Slow} {v : Slow} (hsyn : c.state ≠ .synSent)
    (hq : ∀ m ∈ c.rx.rxqOoo, m.Fits fin) (hp : p.segment.Fits fin)
    (hbefore : ¬(finSeen c.state = true ∨ c.state = .closed)) (ht : Texts c p.segment res)
    (hv : res = .ok v) : Intake fin c v.conn := by
  cases htext : tcpRxText c.rx p.segment with
  | error a =>
    rw [ht.error a htext] at hv
    cases hv
  | ok text =>
    cases text with
    | none =>
      obtain ⟨v',hv',hk,hl⟩ := ht.left htext
      rw [hv] at hv'
      obtain rfl := Except.ok.inj hv'
      exact .quiet hk hl
    | some t =>
      obtain ⟨new,hfills,hfits,hwake,-⟩ := tcpRxText_fills htext hp hq
      obtain ⟨v',hv',hk,hl,hseen⟩ := ht.taken t htext hwake
      rw [hv] at hv'
      obtain rfl := Except.ok.inj hv'
      have hrx : v.conn.rx = t.rx := hk.rx
      refine .filled hbefore (hrx ▸ hfills) (hrx ▸ hfits) (hrx ▸ hk) fun hs => ?_
      cases hf : t.fin with
      | false => exact hsyn ((hl hf).syn hs)
      | true =>
        have := hseen hf
        rw [hs] at this
        cases this

theorem Guarded.intake (h : Guarded env c p) (win : BitVec 32) :
    Intake fin c (tcpRxConnFast c p.mbuf p.ack win p.textLen).1 := by
  obtain ⟨hk,hst⟩ := tcpRxConnFast_keeps c p.mbuf p.ack win p.textLen
  have hrx : (tcpRxConnFast c p.mbuf p.ack win p.textLen).1.rx =
      { c.rx with
        rcvNxt := p.seq+p.textLen
        rcvWnd := c.rx.rcvWnd-p.textLen
        rxq := c.rx.rxq++[p.mbuf] } := by
    simp only [tcpRxConnFast,(fastAck_keeps c p.mbuf.segSeq p.ack win).1.rx]
    rfl
  have hlen := h.passes.textLen_eq.1
  have hwnd : (c.rx.rcvWnd-p.textLen).toNat+([p.mbuf].flatMap Mbuf.data).length =
      c.rx.rcvWnd.toNat := by
    have hle := h.length.2.2
    rw [toNat_sub_sub hle,flatMap_singleton]
    omega
  have hedge : p.seq+p.textLen+(c.rx.rcvWnd-p.textLen) = c.rx.rcvNxt+c.rx.rcvWnd := by
    rw [h.seq]
    abel
  have hfills : Fills fin c.rx (tcpRxConnFast c p.mbuf p.ack win p.textLen).1.rx [p.mbuf] := by
    rw [hrx]
    exact ⟨rfl,hwnd.le,fun _ => hwnd,hedge⟩
  refine .filled (by rw [h.state]; decide) hfills ?_ hk (by rw [hst,h.state]; decide)
  rw [hrx,h.ooo]
  simp

theorem tcpRxConn_intake (hsyn : c.state ≠ .synSent) (hq : ∀ m ∈ c.rx.rxqOoo, m.Fits fin)
    (hfin : fin = false → has p.flags tcpFin = false) (h : tcpRxConn env c p = .ok (c',d)) :
    Intake fin c c' := by
  by_cases hpass : p.Passes c
  · rw [tcpRxConn_passes hpass] at h
    split at h
    · obtain ⟨v,hv,hdone⟩ := map_eq_ok h
      obtain ⟨hk,hs⟩ := v.done_keeps p.mbuf
      rw [hdone] at hk hs
      refine Intake.keeps ?_ hk hs
      rcases rxSlow_cases env p.mbuf hsyn with
        ⟨v',hv',hf,-⟩ | ⟨v',hv',hkeeps,hlater⟩ | ⟨-,hbefore,ht⟩
      · rw [hv] at hv'
        obtain rfl := Except.ok.inj hv'
        exact .failed hf
      · rw [hv] at hv'
        obtain rfl := Except.ok.inj hv'
        exact .quiet hkeeps hlater
      · exact texts_intake hsyn hq (hpass.fits hfin) hbefore ht hv
    · rename_i hfast
      have hg := guarded hpass (Bool.eq_false_of_not_eq_true hfast)
      have hc : (tcpRxConnFast c p.mbuf p.ack (p.window c) p.textLen).1 = c' :=
        congrArg Prod.fst (Except.ok.inj h)
      rw [← hc]
      exact hg.intake _
  · obtain ⟨_,hd⟩ := tcpRxConn_drops env hpass
    rw [hd] at h
    cases h
    exact .quiet (.refl c) (.refl _)

end Packets

/-! ### Sections -/

/-- A read that must not take text, or one that takes it. -/
inductive Reads (c : Conn) (len : ℕ) : Conn → ReadResult → Prop
  | refused {r : ReadResult} (none : r.cpylen = none) : Reads c len c r
  | takes (free : c.rxExclusive = false) : Reads c len (takeText c len).1 (takeText c len).2

/-- What an event does to the connection, and to the reads that are inside a buffer. -/
inductive Does (c : Conn) (readers : List ℕ) : Event → Conn → List ℕ → Prop
  | recv {env : Env} {p : Packet} {c' : Conn} {d : List Deferred}
    (rx : tcpRxConn env c p = .ok (c',d)) : Does c readers (.recv env p) c' readers
  | reads {ev : Event} {len : ℕ} {c' : Conn} {r : ReadResult} (reads : Reads c len c' r) :
    Does c readers ev c' (readers++r.cpylen.toList)
  | finish {i k : ℕ} {c' : Conn} (reader : readers[i]? = some k)
    (finish : tcpReadFinish c k = .ok c') : Does c readers (.finish i) c' (readers.eraseIdx i)
  | tryFinish : Does c readers .tryFinish (tcpTryReadFinish c) readers
  | shutdown : Does c readers .shutdown (tcpConnShutdownRx c).1 readers
  | fail {err : ℤ} {c' : Conn} {d : List Deferred} (fail : tcpConnFail c err = .ok (c',d)) :
    Does c readers (.fail err) c' readers
  | send {c' : Conn} (later : Later c.state c'.state) :
    Does c readers (.send c') (c.sent c') readers

section Sections

variable {c c' : Conn} {len : ℕ} {r : ReadResult} {s s' : Sys} {ev : Event}

theorem tcpReadWait_reads (h : tcpReadWait c len = some (c',r)) : Reads c len c' r := by
  unfold tcpReadWait at h
  split at h
  · cases h
  rename_i hfree
  split at h
  · cases h
    exact .refused rfl
  · rename_i hopen
    have hidle : c.rxExclusive = false ∧ c.rx.rxq ≠ [] := by simpa [hopen] using hfree
    have htake : Reads c len (takeText c len).1 (takeText c len).2 := .takes hidle.1
    rw [some.inj h] at htake
    exact htake

theorem tcpReadNowait_reads (c : Conn) (len : ℕ) :
    Reads c len (tcpReadNowait c len).1 (tcpReadNowait c len).2 := by
  unfold tcpReadNowait
  split
  · exact .refused rfl
  rename_i hfree
  split
  · exact .refused rfl
  · exact .takes (Bool.or_eq_false_iff.mp (Bool.not_eq_true _ ▸ hfree)).1

theorem step_does (h : s.step ev = .ok (some s')) :
    Does s.conn s.readers ev s'.conn s'.readers := by
  cases ev with
  | recv env p =>
    obtain ⟨c',hfst,h⟩ := bind_eq_ok h
    obtain ⟨⟨_,d⟩,hrx,rfl⟩ := map_eq_ok hfst
    cases h
    exact .recv hrx
  | read len =>
    obtain ⟨⟨c',r⟩,hr,rfl⟩ := map_eq_some_iff.mp (Except.ok.inj h)
    exact .reads (tcpReadWait_reads hr)
  | tryRead len =>
    obtain rfl := some.inj (Except.ok.inj h)
    exact .reads (tcpReadNowait_reads s.conn len)
  | finish i =>
    rw [Sys.step] at h
    split at h
    · cases h
    · rename_i k hi
      obtain ⟨c',hf,h⟩ := bind_eq_ok h
      cases h
      exact .finish hi hf
  | tryFinish =>
    obtain ⟨-,hs⟩ := ite_none_left_eq_some.mp (Except.ok.inj h)
    obtain rfl := some.inj hs
    exact .tryFinish
  | shutdown =>
    obtain rfl := some.inj (Except.ok.inj h)
    exact .shutdown
  | fail err =>
    obtain ⟨c',hfst,h⟩ := bind_eq_ok h
    obtain ⟨⟨_,d⟩,hfail,rfl⟩ := map_eq_ok hfst
    cases h
    exact .fail hfail
  | send c' =>
    obtain ⟨hlater,hs⟩ := ite_none_right_eq_some.mp (Except.ok.inj h)
    obtain rfl := some.inj hs
    exact .send hlater

end Sections

/-! ### The account -/

/-- The right edge of the window. -/
def Conn.edge (c : Conn) : BitVec 32 := c.rx.rcvNxt+c.rx.rcvWnd

/-- The bytes of `rxq` that no read has claimed. -/
def Sys.unclaimed (s : Sys) : ℕ := (s.conn.rx.rxq.flatMap Mbuf.data).length-s.readers.sum

/-- The window and what waits to be read never pass `winmax` together; they are `winmax` as
long as no FIN has come and the connection has not failed. -/
structure Ledger (fin : Bool) (c : Conn) (readers : List ℕ) : Prop where
  past : c.state ≠ .synSent
  owned : Owned c readers
  queued : ∀ m ∈ c.rx.rxqOoo, m.Fits fin
  room : c.rx.rcvWnd.toNat+unread c.rx.rxq readers ≤ c.winmax.toNat
  account : fin = false → ¬(finSeen c.state = true ∨ c.state = .closed) →
    c.rx.rcvWnd.toNat+unread c.rx.rxq readers = c.winmax.toNat

def BringsNoFin : Event → Prop
  | .recv _ p => has p.flags tcpFin = false
  | _ => True

instance : (ev : Event) → Decidable (BringsNoFin ev)
  | .recv _ p => inferInstanceAs (Decidable (has p.flags tcpFin = false))
  | .read _ | .tryRead _ | .finish _ | .tryFinish | .shutdown | .fail _ | .send _ =>
    inferInstanceAs (Decidable True)

/-- No `tcp_try_read` that took whole buffers ends while another read is inside one. -/
def EndsAlone (s : Sys) : Event → Prop
  | .tryFinish => s.conn.rxExclusive = false
  | _ => True

section Account

variable {fin : Bool} {c c' : Conn} {readers : List ℕ} {s s' : Sys} {ev : Event}

theorem Ledger.congr (h : Ledger fin c readers) (hrx : c'.rx = c.rx)
    (hex : c'.rxExclusive = c.rxExclusive) (hwin : c'.winmax = c.winmax)
    (hl : Later c.state c'.state) : Ledger fin c' readers where
  past := fun hs => h.past (hl.syn hs)
  owned := by
    have := h.owned
    rwa [Owned,← hrx,← hex] at this
  queued := hrx ▸ h.queued
  room := by
    rw [hrx,hwin]
    exact h.room
  account := fun hfin hs => by
    rw [hrx,hwin]
    exact h.account hfin (fun hc => hs (hl.seen hc))

theorem Ledger.failed (h : Ledger fin c readers) (hf : FailedFrom c c') :
    Ledger fin c' readers := by
  obtain ⟨howned,hunread⟩ := h.owned.failed hf
  have hroom := h.room
  refine ⟨by rw [hf.state]; decide,howned,by simp [hf.rxqOoo],?_,
    fun _ hs => absurd (Or.inr hf.state) hs⟩
  rw [hf.rcvWnd,hf.winmax]
  omega

theorem Ledger.intake (h : Ledger fin c readers) (hi : Intake fin c c') :
    Ledger fin c' readers ∧ c'.edge = c.edge ∧ c'.winmax = c.winmax := by
  cases hi with
  | quiet keeps later =>
    exact ⟨h.congr keeps.rx keeps.rxExclusive keeps.winmax later,by rw [Conn.edge,keeps.rx]; rfl,
      keeps.winmax⟩
  | failed failed =>
    exact ⟨h.failed failed,by rw [Conn.edge,failed.rcvNxt,failed.rcvWnd]; rfl,failed.winmax⟩
  | filled before fills queued keeps past =>
    obtain ⟨howned,hunread⟩ := h.owned.append keeps.rxExclusive fills.rxq
    have hwin : c'.winmax = c.winmax := keeps.winmax
    have hroom := h.room
    have hwindow := fills.window
    refine ⟨⟨past,howned,queued,?_,fun hfin _ => ?_⟩,fills.edge,hwin⟩
    · rw [hunread,hwin]
      omega
    · have haccount := h.account hfin before
      have hexact := fills.whole hfin
      rw [hunread,hwin]
      omega

theorem Ledger.take (h : Ledger fin c readers) (hfree : c.rxExclusive = false) (len : ℕ) :
    Ledger fin (takeText c len).1 (readers++(takeText c len).2.cpylen.toList) ∧
      (takeText c len).1.edge = c.edge+BitVec.ofNat 32 (takeLoop len c.rx.rxq 0).readlen ∧
      (takeLoop len c.rx.rxq 0).readlen ≤ c.winmax.toNat := by
  obtain ⟨howned,hunread⟩ := h.owned.take hfree len
  have hpos := howned.unread_nonneg
  have hroom := h.room
  generalize (takeText c len).2.cpylen.toList = inside at howned hunread hpos ⊢
  rw [takeText_fst] at howned hunread hpos ⊢
  generalize takeLoop len c.rx.rxq 0 = t at howned hunread hpos ⊢
  have hsmall := c.winmax.isLt
  have hwnd : (c.rx.rcvWnd+BitVec.ofNat 32 t.readlen).toNat = c.rx.rcvWnd.toNat+t.readlen := by
    rw [BitVec.toNat_add,BitVec.toNat_ofNat,Nat.mod_eq_of_lt (a:=t.readlen) (by omega)]
    exact Nat.mod_eq_of_lt (by omega)
  refine ⟨⟨h.past,howned,h.queued,?_,fun hfin hs => ?_⟩,?_,by omega⟩
  · rw [hunread]
    dsimp only
    omega
  · have haccount := h.account hfin hs
    rw [hunread]
    dsimp only
    omega
  · simp only [Conn.edge]
    abel

theorem Ledger.finish {i k : ℕ} (h : Ledger fin c readers) (hi : readers[i]? = some k)
    (hf : tcpReadFinish c k = .ok c') :
    Ledger fin c' (readers.eraseIdx i) ∧ c'.edge = c.edge ∧ c'.winmax = c.winmax := by
  obtain ⟨m,rest,-,-,-,herase,hfin,hunread⟩ := h.owned.finish hi
  rw [hfin] at hf
  obtain rfl := Except.ok.inj hf
  refine ⟨⟨h.past,.inl ⟨rfl,herase⟩,h.queued,?_,fun hfin hs => ?_⟩,rfl,rfl⟩
  · have hroom := h.room
    rw [← hunread] at hroom
    rw [herase]
    exact hroom
  · have haccount := h.account hfin hs
    rw [← hunread] at haccount
    rw [herase]
    exact haccount

/-- What a step does to the account. -/
structure Moved (fin : Bool) (c c' : Conn) (readers' : List ℕ) (claimed : ℕ) : Prop where
  ledger : Ledger fin c' readers'
  edge : c'.edge = c.edge+BitVec.ofNat 32 claimed
  claimed : claimed ≤ c.winmax.toNat
  winmax : c'.winmax = c.winmax

theorem Moved.of_same (h : Ledger fin c' readers ∧ c'.edge = c.edge ∧ c'.winmax = c.winmax) :
    Moved fin c c' readers 0 :=
  ⟨h.1,by rw [h.2.1]; exact (BitVec.add_zero _).symm,Nat.zero_le _,h.2.2⟩

theorem Ledger.reads {len : ℕ} {r : ReadResult} (h : Ledger fin c readers)
    (hr : Reads c len c' r) : ∃ claimed, Moved fin c c' (readers++r.cpylen.toList) claimed := by
  cases hr with
  | refused hnone =>
    rw [hnone,toList_none,append_nil]
    exact ⟨0,.of_same ⟨h,rfl,rfl⟩⟩
  | takes hfree =>
    obtain ⟨hledger,hedge,hle⟩ := h.take hfree len
    exact ⟨_,hledger,hedge,hle,by rw [takeText_fst]⟩

theorem Ledger.does {readers' : List ℕ} (h : Ledger fin c readers)
    (hfin : fin = false → BringsNoFin ev) (hev : ev = .tryFinish → c.rxExclusive = false)
    (hdoes : Does c readers ev c' readers') : ∃ claimed, Moved fin c c' readers' claimed := by
  cases hdoes with
  | recv hrx => exact ⟨0,.of_same (h.intake (tcpRxConn_intake h.past h.queued hfin hrx))⟩
  | reads hr => exact h.reads hr
  | finish hi hf => exact ⟨0,.of_same (h.finish hi hf)⟩
  | tryFinish => exact ⟨0,.of_same ⟨h.congr rfl (hev rfl).symm rfl (.refl _),rfl,rfl⟩⟩
  | shutdown =>
    refine ⟨0,.of_same ?_⟩
    rw [tcpConnShutdownRx]
    split
    · exact ⟨h,rfl,rfl⟩
    · exact ⟨h.congr rfl rfl rfl (.refl _),rfl,rfl⟩
  | @fail err _ d hfail =>
    obtain ⟨c₁,d₁,hfail',hfrom⟩ := tcpConnFail_ok c err
    rw [hfail] at hfail'
    cases hfail'
    refine ⟨0,.of_same ⟨h.failed hfrom,?_,hfrom.winmax⟩⟩
    rw [Conn.edge,hfrom.rcvNxt,hfrom.rcvWnd]
    rfl
  | send hlater => exact ⟨0,.of_same ⟨h.congr rfl rfl rfl hlater,rfl,rfl⟩⟩

theorem step_moved (h : Ledger fin s.conn s.readers) (hfin : fin = false → BringsNoFin ev)
    (hev : EndsAlone s ev) (hstep : s.step ev = .ok (some s')) :
    ∃ claimed, Moved fin s.conn s'.conn s'.readers claimed := by
  refine h.does hfin (fun htry => ?_) (step_does hstep)
  rw [htry] at hev
  exact hev

theorem run_ledger {ok : Sys → Event → Prop} (hstart : Ledger fin s.conn s.readers)
    (hok : ∀ t ev, ok t ev → (fin = false → BringsNoFin ev) ∧ EndsAlone t ev) (h : Run ok s s') :
    Ledger fin s'.conn s'.readers ∧ s'.conn.winmax = s.conn.winmax := by
  refine h.invariant (P:=fun t => Ledger fin t.conn t.readers ∧ t.conn.winmax = s.conn.winmax)
    ⟨hstart,rfl⟩ fun t ev t' ht hev hstep => ?_
  obtain ⟨hfin,halone⟩ := hok t ev hev
  obtain ⟨_,hmoved⟩ := step_moved ht.1 hfin halone hstep
  exact ⟨hmoved.ledger,hmoved.winmax.trans ht.2⟩

theorem Owned.unread_eq (h : Owned s.conn s.readers) :
    unread s.conn.rx.rxq s.readers = s.unclaimed := by
  have hpos := h.unread_nonneg
  rw [unread] at hpos ⊢
  rw [Sys.unclaimed]
  omega

theorem wrapsLte_add (a : BitVec 32) {k : ℕ} (h : k < 2^31) :
    wrapsLte a (a+BitVec.ofNat 32 k) = true := by
  rw [← serial_self a,← serial_natCast,serial_add]
  exact (wrapsLte_serial (by omega) (by omega)).mpr (by omega)

end Account

/-- A connection past its SYN to which no text has come. -/
structure Conn.Unused (c : Conn) : Prop where
  past : c.state ≠ .synSent
  rxq : c.rx.rxq = []
  rxqOoo : c.rx.rxqOoo = []
  rxExclusive : c.rxExclusive = false
  rcvWnd : c.rx.rcvWnd = c.winmax

theorem Conn.Unused.ledger {c : Conn} (h : c.Unused) (fin : Bool) : Ledger fin c [] where
  past := h.past
  owned := .inl ⟨h.rxExclusive,rfl⟩
  queued := by simp [h.rxqOoo]
  room := by simp [unread,h.rxq,h.rcvWnd]
  account := by simp [unread,h.rxq,h.rcvWnd]

/-- As long as no FIN comes, the window and the bytes that wait to be claimed are `winmax`
together.  Each step moves the edge forward by the bytes that it claims, which is not back in the
order of `wraps_lte` for a `winmax` below half the circle. -/
theorem window_account {c : Conn} {s : Sys} (hc : c.Unused)
    (h : Run (fun s ev => BringsNoFin ev ∧ EndsAlone s ev) (.start c) s) :
    (finSeen s.conn.state = false → s.conn.state ≠ .closed →
      s.conn.rx.rcvWnd.toNat+s.unclaimed = c.winmax.toNat) ∧
    ∀ ev s', BringsNoFin ev → EndsAlone s ev → s.step ev = .ok (some s') →
      (∃ claimed ≤ c.winmax.toNat, s'.conn.edge = s.conn.edge+BitVec.ofNat 32 claimed) ∧
      (c.winmax.toNat < 2^31 → wrapsLte s.conn.edge s'.conn.edge = true) := by
  obtain ⟨hledger,hwin⟩ := run_ledger (hc.ledger false) (fun _ _ hev => ⟨fun _ => hev.1,hev.2⟩) h
  have hwin : s.conn.winmax = c.winmax := hwin
  refine ⟨fun hfin hclosed => ?_,fun ev s' hfin hev hstep => ?_⟩
  · have haccount := hledger.account rfl (by simp [hfin,hclosed])
    rw [hledger.owned.unread_eq,hwin] at haccount
    omega
  · obtain ⟨claimed,hmoved⟩ := step_moved hledger (fun _ => hfin) hev hstep
    have hle := hmoved.claimed
    rw [hwin] at hle
    refine ⟨⟨claimed,hle,hmoved.edge⟩,fun hmax => ?_⟩
    rw [hmoved.edge]
    exact wrapsLte_add _ (by omega)

theorem unused_opened (wnd : BitVec 32) : (Conn.opened wnd).Unused :=
  ⟨by rintro ⟨⟩,rfl,rfl,rfl,rfl⟩

/-- Five bytes that overlap, the second half first, and a read that stops inside a buffer. -/
theorem window_account_partial : ∃ s, (Conn.opened 10).Unused ∧
    Run (fun s ev => BringsNoFin ev ∧ EndsAlone s ev) (.start (.opened 10)) s ∧
    s.conn.state = .established ∧ s.conn.rx.rcvWnd = 7 ∧ s.unclaimed = 3 ∧
    s.conn.rx.rcvWnd.toNat+s.unclaimed = (Conn.opened 10).winmax.toNat := by
  have h₁ : Run (fun s ev => BringsNoFin ev ∧ EndsAlone s ev) (.start (.opened 10)) _ :=
    Run.next .refl (.arrive 3 [3,4,5] tcpAck (by decide)) ⟨by decide,trivial⟩ (by decide +kernel)
  have h₂ := h₁.next (.arrive 1 [1,2,3] tcpAck (by decide)) ⟨by decide,trivial⟩
    (by decide +kernel)
  have h₃ := h₂.next (.read 2) ⟨trivial,trivial⟩ (by decide +kernel)
  exact ⟨_,unused_opened 10,h₃,by decide +kernel,by decide +kernel,by decide +kernel,
    (window_account (unused_opened 10) h₃).1 (by decide +kernel) (by decide +kernel)⟩

/-- A `tcp_try_read` takes two whole bytes.  Before it ends, a read stops inside the next buffer.
The end of the first clears `rx_exclusive`, and a second read claims the same byte again. -/
theorem window_claimed_twice : ∃ s, (Conn.opened 10).Unused ∧
    Run (fun _ ev => BringsNoFin ev) (.start (.opened 10)) s ∧ s.conn.state = .established ∧
    s.conn.winmax = 10 ∧ s.conn.rx.rcvWnd = 11 := by
  have h₁ : Run (fun _ ev => BringsNoFin ev) (.start (.opened 10)) _ :=
    Run.next .refl (.arrive 1 [1,2] tcpAck (by decide)) (by decide) (by decide +kernel)
  have h₂ := h₁.next (.arrive 3 [3,4,5,6] tcpAck (by decide)) (by decide) (by decide +kernel)
  have h₃ := h₂.next (.tryRead 2) trivial (by decide +kernel)
  have h₄ := h₃.next (.read 1) trivial (by decide +kernel)
  have h₅ := h₄.next .tryFinish trivial (by decide +kernel)
  have h₆ := h₅.next (.read 10) trivial (by decide +kernel)
  exact ⟨_,unused_opened 10,h₆,by decide +kernel,by decide +kernel,by decide +kernel⟩

end Vessel.Tcp
