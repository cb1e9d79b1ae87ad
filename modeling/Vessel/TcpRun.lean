import Vessel.TcpStep
import Mathlib.Logic.Relation

/-! Runs of a connection: packets, reads in any number of threads, and whatever else the
connection does on its own.  A read is in two sections, and other sections may come between
them. -/
namespace Vessel.Tcp

open Serial List

/-! ### Reads -/

/-- What the loop of `tcp_read_wait` takes from the queue `q`. -/
structure Take.Of (t : Take) (len readlen : ℕ) (q : List Mbuf) : Prop where
  split : q = t.whole ++ t.left
  whole : t.inside = false → t.readlen = readlen + (t.whole.flatMap Mbuf.data).length
  inside : t.inside = true → t.readlen = len ∧ ∃ m rest, t.left = m::rest ∧
    readlen + (t.whole.flatMap Mbuf.data).length < len ∧
    len < readlen + (t.whole.flatMap Mbuf.data).length + m.data.length
  le : t.readlen ≤ len

theorem takeLoop_of (len : ℕ) (q : List Mbuf) : ∀ readlen : ℕ, readlen ≤ len →
    (takeLoop len q readlen).Of len readlen q := by
  induction q with
  | nil =>
    intro readlen hle
    exact ⟨rfl,fun _ => rfl,by simp [takeLoop],hle⟩
  | cons m rest ih =>
    intro readlen hle
    rw [takeLoop]
    split
    · exact ⟨rfl,fun _ => rfl,by simp,hle⟩
    rename_i hmore
    dsimp only
    split
    · exact ⟨rfl,fun _ => rfl,by simp,hle⟩
    split
    · rename_i hin
      refine ⟨rfl,by simp,fun _ => ⟨rfl,m,rest,rfl,?_,?_⟩,Nat.le_refl _⟩
      · simp only [flatMap_nil,length_nil]
        omega
      · simp only [flatMap_nil,length_nil]
        omega
    · have hrest := ih (readlen + m.data.length) (by omega)
      refine ⟨?_,fun hi => ?_,fun hi => ?_,hrest.le⟩
      · rw [cons_append,← hrest.split]
      · rw [hrest.whole hi,flatMap_cons,length_append,Nat.add_assoc]
      · obtain ⟨hlen,m',rest',hleft,hlo,hhi⟩ := hrest.inside hi
        refine ⟨hlen,m',rest',hleft,?_,?_⟩
        · rw [flatMap_cons,length_append]
          omega
        · rw [flatMap_cons,length_append]
          omega

theorem Take.Of.drop_left {t : Take} {len : ℕ} {q : List Mbuf} (h : t.Of len 0 q) :
    (t.left.flatMap Mbuf.data).drop
        (if t.inside then len - (t.whole.flatMap Mbuf.data).length else 0) =
      (q.flatMap Mbuf.data).drop t.readlen := by
  have hsplit : q.flatMap Mbuf.data = t.whole.flatMap Mbuf.data ++ t.left.flatMap Mbuf.data := by
    rw [← flatMap_append,← h.split]
  rw [hsplit,drop_append]
  cases hi : t.inside with
  | false =>
    have hw := h.whole hi
    rw [Nat.zero_add] at hw
    simp [hw]
  | true =>
    obtain ⟨hlen,-,-,-,hlo,-⟩ := h.inside hi
    have hnil : (t.whole.flatMap Mbuf.data).drop len = [] := drop_eq_nil_of_le (by omega)
    rw [hlen,hnil,nil_append,if_pos rfl]

theorem Take.Of.start_le {t : Take} {len readlen : ℕ} {q : List Mbuf} (h : t.Of len readlen q) :
    readlen ≤ t.readlen := by
  cases hi : t.inside with
  | false =>
    rw [h.whole hi]
    exact Nat.le_add_right ..
  | true =>
    obtain ⟨hlen,-,-,-,hlo,-⟩ := h.inside hi
    omega

theorem takeLoop_pos {len : ℕ} (hlen : 0 < len) {m : Mbuf} (rest : List Mbuf) (hm : m.data ≠ []) :
    0 < (takeLoop len (m::rest) 0).readlen := by
  have hpos := length_pos_iff.mpr hm
  rw [takeLoop,if_neg (by omega),if_neg (by omega)]
  split
  · exact hlen
  · have := (takeLoop_of len rest (0+m.data.length) (by omega)).start_le
    dsimp only
    omega

theorem takeLoop_sawFin {len : ℕ} {q : List Mbuf} : ∀ {readlen : ℕ},
    (takeLoop len q readlen).sawFin = true →
    (∃ m ∈ (takeLoop len q readlen).whole, m.isFin = true) ∨
      ∃ m rest, (takeLoop len q readlen).left = m::rest ∧ m.isFin = true ∧
        ((takeLoop len q readlen).inside = true ∨ m.data = []) := by
  induction q with
  | nil => simp [takeLoop]
  | cons m rest ih =>
    intro readlen
    rw [takeLoop]
    split
    · simp
    dsimp only
    split
    · rename_i hfin
      exact fun _ => Or.inr ⟨m,rest,rfl,hfin.1,Or.inr (length_eq_zero_iff.mp hfin.2)⟩
    split
    · exact fun hf => Or.inr ⟨m,rest,rfl,hf,Or.inl rfl⟩
    · intro hf
      rcases Bool.or_eq_true_iff.mp hf with hf | hf
      · exact Or.inl ⟨m,mem_cons_self,hf⟩
      · rcases ih hf with ⟨m',hm',hf'⟩ | hstop
        · exact Or.inl ⟨m',mem_cons_of_mem _ hm',hf'⟩
        · exact Or.inr hstop

theorem takeLoop_sawFin_of_mem {len : ℕ} {q : List Mbuf} {m : Mbuf} : ∀ {readlen : ℕ},
    m ∈ (takeLoop len q readlen).whole → m.isFin = true → (takeLoop len q readlen).sawFin = true := by
  induction q with
  | nil => simp [takeLoop]
  | cons m' rest ih =>
    intro readlen
    rw [takeLoop]
    split
    · simp
    dsimp only
    split
    · simp
    split
    · simp
    · intro hm hf
      rcases mem_cons.mp hm with rfl | hm
      · exact Bool.or_eq_true_iff.mpr (Or.inl hf)
      · exact Bool.or_eq_true_iff.mpr (Or.inr (ih hm hf))

theorem takeLoop_fin_head {len : ℕ} {m : Mbuf} {rest : List Mbuf} (hlen : 0 < len)
    (hf : m.isFin = true) (hm : m.data = []) :
    takeLoop len (m::rest) 0 = ⟨[],false,0,m::rest,true⟩ := by
  rw [takeLoop,if_neg (by omega),if_pos ⟨hf,by rw [hm]; rfl⟩]

/-! ### The system -/

instance (s s' : State) : Decidable (Later s s') :=
  decidable_of_iff ((s' = .synSent → s = .synSent) ∧ (finSeen s' = true → finSeen s = true) ∧
      (s' = .closed → s = .closed ∨ finSeen s = true) ∧
      (finSeen s = true ∨ s = .closed → finSeen s' = true ∨ s' = .closed))
    ⟨fun h => ⟨h.1,h.2.1,h.2.2.1,h.2.2.2⟩,fun h => ⟨h.syn,h.fin,h.closed,h.seen⟩⟩

/-- A connection with the reads that are between their two sections: how much each still has
to pull off the first buffer, and how many calls of `tcp_try_read` hold no buffer.  `log` is
all that was ever appended to `rxq`, `returns` what the calls of `tcp_read` return, in the
order of their first sections. -/
structure Sys where
  conn : Conn
  readers : List ℕ
  tries : ℕ
  log : List UInt8
  returns : List (ℤ × List UInt8)

def Sys.start (c : Conn) : Sys := ⟨c,[],0,[],[]⟩

inductive Event
  | recv (env : Env) (p : Packet)
  | read (len : ℕ)
  | tryRead (len : ℕ)
  | finish (i : ℕ)
  | tryFinish
  | shutdown
  | fail (err : ℤ)
  | send (c : Conn)

/-- Another section left the connection as `c'`, and the receive side as it was. -/
def Conn.sent (c c' : Conn) : Conn :=
  { c' with
    rx := c.rx
    rxClosed := c.rxClosed
    rxExclusive := c.rxExclusive
    winmax := c.winmax
    irs := c.irs
    rcvMss := c.rcvMss
    err := c.err }

/-- None where the section cannot run now. -/
def Sys.step (s : Sys) : Event → Except Abort (Option Sys)
  | .recv env p => do
    let c ← Prod.fst <$> tcpRxConn env s.conn p
    let new := c.rx.rxq.drop s.conn.rx.rxq.length
    pure (some { s with conn := c, log := s.log ++ new.flatMap Mbuf.data })
  | .read len => pure ((tcpReadWait s.conn len).map fun (c,r) =>
      { s with
        conn := c
        readers := s.readers ++ r.cpylen.toList
        returns := s.returns ++ [(r.ret,r.bytes)] })
  | .tryRead len =>
    let (c,r) := tcpReadNowait s.conn len
    pure (some { s with
      conn := c
      readers := s.readers ++ r.cpylen.toList
      tries := s.tries + if 0 < r.ret ∧ r.cpylen = none then 1 else 0 })
  | .finish i =>
    match s.readers[i]? with
    | none => pure none
    | some cpylen => do
      let c ← tcpReadFinish s.conn cpylen
      pure (some { s with conn := c, readers := s.readers.eraseIdx i })
  | .tryFinish =>
    pure (if s.tries = 0 then none
      else some { s with conn := tcpTryReadFinish s.conn, tries := s.tries-1 })
  | .shutdown => pure (some { s with conn := (tcpConnShutdownRx s.conn).1 })
  | .fail err => do
    let c ← Prod.fst <$> tcpConnFail s.conn err
    pure (some { s with conn := c })
  | .send c => pure (if Later s.conn.state c.state then some { s with conn := s.conn.sent c } else none)

/-- Runs whose events all satisfy `ok` in the state where they happen. -/
def Run (ok : Sys → Event → Prop) : Sys → Sys → Prop :=
  Relation.ReflTransGen fun s s' => ∃ ev, ok s ev ∧ s.step ev = .ok (some s')

theorem Run.invariant {ok : Sys → Event → Prop} {P : Sys → Prop} {s s' : Sys} (h : Run ok s s')
    (hs : P s) (hstep : ∀ s ev s', P s → ok s ev → s.step ev = .ok (some s') → P s') : P s' := by
  induction h with
  | refl => exact hs
  | tail _ hlast ih =>
    obtain ⟨ev,hok,heq⟩ := hlast
    exact hstep _ ev _ ih hok heq

/-! ### What holds between sections -/

/-- The bytes in the queue that no read has been promised. -/
def unread (q : List Mbuf) (readers : List ℕ) : ℤ := (q.flatMap Mbuf.data).length - readers.sum

/-- `rx_exclusive` is set for the one read that is inside the first buffer. -/
def Owned (c : Conn) (readers : List ℕ) : Prop :=
  c.rxExclusive = false ∧ readers = [] ∨
    c.rxExclusive = true ∧ ∃ k m rest, readers = [k] ∧ c.rx.rxq = m::rest ∧ k < m.data.length

/-- The connection stands at `n` in a window up to `e`; what is unread and what may still
come are at most `W` bytes together. -/
structure Inv (Q : Content) (W : ℤ) (c : Conn) (readers : List ℕ) (n e : ℤ) (qs : List Item) :
    Prop where
  ingress : IngressInv Q c.rx n e qs
  window : e - n + unread c.rx.rxq readers ≤ W
  winmax : (c.winmax.toNat : ℤ) ≤ W
  owned : Owned c readers
  syn : c.state = .synSent → c.rx.rxq = [] ∧ qs = []

section Invariant

variable {Q : Content} {W n e : ℤ} {c c' : Conn} {readers : List ℕ} {qs : List Item} {len : ℕ}

theorem Owned.unread_nonneg (h : Owned c readers) : 0 ≤ unread c.rx.rxq readers := by
  rcases h with ⟨-,rfl⟩ | ⟨-,k,m,rest,rfl,hq,hk⟩
  · rw [unread,sum_nil]
    omega
  · rw [unread,hq,flatMap_cons,length_append,sum_singleton]
    omega

theorem takeText_fst (c : Conn) (len : ℕ) : (takeText c len).1 = { c with
    rxClosed := c.rxClosed || (takeLoop len c.rx.rxq 0).sawFin
    rxExclusive := c.rxExclusive || (takeLoop len c.rx.rxq 0).inside
    rx := { c.rx with
      rxq := (takeLoop len c.rx.rxq 0).left
      rcvWnd := c.rx.rcvWnd + BitVec.ofNat 32 (takeLoop len c.rx.rxq 0).readlen } } := by
  simp only [takeText]
  split <;> rfl

theorem takeText_snd (c : Conn) (len : ℕ) : (takeText c len).2 =
    ⟨(takeLoop len c.rx.rxq 0).readlen,
      (c.rx.rxq.flatMap Mbuf.data).take (takeLoop len c.rx.rxq 0).readlen,
      if (takeLoop len c.rx.rxq 0).inside then
        some (len - ((takeLoop len c.rx.rxq 0).whole.flatMap Mbuf.data).length) else none⟩ := by
  have ht := takeLoop_of len c.rx.rxq 0 (Nat.zero_le _)
  have hsplit : c.rx.rxq.flatMap Mbuf.data =
      (takeLoop len c.rx.rxq 0).whole.flatMap Mbuf.data ++
        (takeLoop len c.rx.rxq 0).left.flatMap Mbuf.data := by
    rw [← flatMap_append,← ht.split]
  simp only [takeText]
  rw [hsplit]
  cases hi : (takeLoop len c.rx.rxq 0).inside with
  | false =>
    have hw := ht.whole hi
    rw [Nat.zero_add] at hw
    simp only [Bool.false_eq_true,if_false]
    rw [hw,take_left]
  | true =>
    obtain ⟨hlen,m,rest,hleft,hlo,hhi⟩ := ht.inside hi
    have hbytes : ((takeLoop len c.rx.rxq 0).whole.flatMap Mbuf.data ++
        (m::rest).flatMap Mbuf.data).take len = (takeLoop len c.rx.rxq 0).whole.flatMap Mbuf.data ++
          m.data.take (len - ((takeLoop len c.rx.rxq 0).whole.flatMap Mbuf.data).length) := by
      rw [take_append,take_of_length_le (by omega),flatMap_cons,
        take_append_of_le_length (by omega)]
    simp only [if_true]
    rw [hlen,hleft,hbytes]
    rfl

/-- A read that may go on has the first buffer from then on if it stops inside it, and what it
returns is no longer unread. -/
theorem Owned.take (h : Owned c readers) (hfree : c.rxExclusive = false) (len : ℕ) :
    Owned (takeText c len).1 (readers ++ (takeText c len).2.cpylen.toList) ∧
      unread (takeText c len).1.rx.rxq (readers ++ (takeText c len).2.cpylen.toList) =
        unread c.rx.rxq readers - (takeLoop len c.rx.rxq 0).readlen := by
  have ht := takeLoop_of len c.rx.rxq 0 (Nat.zero_le _)
  have hnone : readers = [] := by
    rcases h with ⟨-,hr⟩ | ⟨hex,-⟩
    · exact hr
    · rw [hfree] at hex
      contradiction
  subst hnone
  rw [nil_append,takeText_fst,takeText_snd]
  generalize takeLoop len c.rx.rxq 0 = t at ht ⊢
  have htotal : (c.rx.rxq.flatMap Mbuf.data).length =
      (t.whole.flatMap Mbuf.data).length + (t.left.flatMap Mbuf.data).length := by
    conv_lhs => rw [ht.split]
    rw [flatMap_append,length_append]
  constructor
  · cases hi : t.inside with
    | false => exact Or.inl ⟨by simp [hfree],rfl⟩
    | true =>
      obtain ⟨-,m,rest,hleft,hlo,hhi⟩ := ht.inside hi
      exact Or.inr ⟨by simp,_,m,rest,rfl,hleft,by omega⟩
  · simp only [unread,htotal]
    cases hi : t.inside with
    | false =>
      simp only [ht.whole hi,Bool.false_eq_true,if_false,Option.toList_none,sum_nil]
      omega
    | true =>
      obtain ⟨hlen,m,rest,hleft,hlo,hhi⟩ := ht.inside hi
      simp only [hlen,if_true,Option.toList_some,sum_singleton,sum_nil]
      omega

theorem Inv.take (h : Inv Q W c readers n e qs) (hW : W ≤ maxWindow) (hfree : c.rxExclusive = false)
    (len : ℕ) : Inv Q W (takeText c len).1 (readers ++ (takeText c len).2.cpylen.toList) n
      (e + (takeLoop len c.rx.rxq 0).readlen) qs := by
  have ht := takeLoop_of len c.rx.rxq 0 (Nat.zero_le _)
  obtain ⟨howned,hunread⟩ := h.owned.take hfree len
  have hat := h.ingress.at'
  have hle := hat.le
  have hwindow := h.window
  have hpos := howned.unread_nonneg
  generalize (takeText c len).2.cpylen.toList = inside at howned hunread hpos ⊢
  rw [takeText_fst] at howned hunread hpos ⊢
  generalize takeLoop len c.rx.rxq 0 = t at ht howned hunread hpos ⊢
  refine ⟨⟨⟨hat.nxt,?_,by omega,by omega⟩,h.ingress.queue,h.ingress.sorted,fun x hx => ?_⟩,
    by omega,h.winmax,howned,fun hs => ⟨?_,(h.syn hs).2⟩⟩
  · change c.rx.rcvWnd + BitVec.ofNat 32 t.readlen = _
    rw [hat.wnd,← serial_natCast,serial_add,show e + t.readlen - n = e - n + t.readlen by omega]
  · obtain ⟨hplaced,hbelow,hbeyond,hsmall,hcontent,hfin⟩ := h.ingress.queued x hx
    exact ⟨hplaced,by omega,hbeyond,hsmall,hcontent,fun hf => by have := hfin hf; omega⟩
  · have hempty := (h.syn hs).1
    rw [ht.split,append_eq_nil_iff] at hempty
    exact hempty.2

theorem Inv.congr (h : Inv Q W c readers n e qs) (hrx : c'.rx = c.rx)
    (hex : c'.rxExclusive = c.rxExclusive) (hwin : c'.winmax = c.winmax)
    (hsyn : c'.state = .synSent → c.state = .synSent) : Inv Q W c' readers n e qs where
  ingress := hrx ▸ h.ingress
  window := hrx ▸ h.window
  winmax := hwin ▸ h.winmax
  owned := by
    have := h.owned
    rwa [Owned,← hrx,← hex] at this
  syn := fun hs => by
    rw [hrx]
    exact h.syn (hsyn hs)

theorem Inv.keeps (h : Inv Q W c readers n e qs) (hk : Keeps c c') (hl : Later c.state c'.state) :
    Inv Q W c' readers n e qs :=
  h.congr hk.rx hk.rxExclusive hk.winmax hl.syn

theorem Owned.failed (h : Owned c readers) (hf : FailedFrom c c') :
    Owned c' readers ∧ unread c'.rx.rxq readers ≤ unread c.rx.rxq readers := by
  have hpos := h.unread_nonneg
  rw [Owned,hf.rxq,hf.rxExclusive]
  rcases h with ⟨hex,rfl⟩ | ⟨hex,hreader⟩
  · rw [hex]
    exact ⟨Or.inl ⟨rfl,rfl⟩,hpos⟩
  · rw [hex]
    exact ⟨Or.inr ⟨rfl,hreader⟩,Int.le_refl _⟩

theorem Inv.failed (h : Inv Q W c readers n e qs) (hf : FailedFrom c c') :
    Inv Q W c' readers n e [] := by
  have hwindow := h.window
  obtain ⟨howned,hunread⟩ := h.owned.failed hf
  exact {
    ingress := ⟨h.ingress.at'.congr hf.rcvNxt hf.rcvWnd,hf.rxqOoo,List.Pairwise.nil,by simp⟩
    window := by omega
    winmax := hf.winmax ▸ h.winmax
    owned := howned
    syn := fun hs => by rw [hf.state] at hs; contradiction }

theorem Inv.synced (h : Inv Q W c readers n e qs) (hW : W ≤ maxWindow) (hs : Synced c c')
    (hwait : c.state = .synSent) : ∃ n' e', Inv Q W c' readers n' e' [] := by
  obtain ⟨hempty,rfl⟩ := h.syn hwait
  have hwindow := h.window
  have hwinmax := h.winmax
  have hreaders : readers = [] ∧ c.rxExclusive = false := by
    rcases h.owned with ⟨hex,hr⟩ | ⟨-,k,m,rest,-,hq,-⟩
    · exact ⟨hr,hex⟩
    · rw [hempty] at hq
      contradiction
  obtain ⟨rfl,hex⟩ := hreaders
  rw [hempty] at hwindow
  simp only [unread,flatMap_nil,length_nil,sum_nil] at hwindow
  have hwnd : (c'.rx.rcvWnd.toNat : ℤ) ≤ W := by
    rcases hs.rcvWnd with heq | hle
    · have hne := h.ingress.at'.le
      have hb := h.ingress.at'.bounded
      unfold maxWindow at hb
      rw [heq,h.ingress.at'.wnd,serial_toNat (by omega) (by omega)]
      omega
    · omega
  have hword : ∀ b : BitVec 32, serial b.toNat = b := fun b => by
    rw [serial_self]
  have hqueue : c'.rx.rxqOoo = [] := hs.rxqOoo.trans h.ingress.queue
  refine ⟨c'.rx.rcvNxt.toNat,c'.rx.rcvNxt.toNat + c'.rx.rcvWnd.toNat,
    ⟨⟨(hword _).symm,?_,by omega,by omega⟩,hqueue,List.Pairwise.nil,by simp⟩,?_,?_,?_,?_⟩
  · rw [show (c'.rx.rcvNxt.toNat : ℤ) + c'.rx.rcvWnd.toNat - c'.rx.rcvNxt.toNat =
      c'.rx.rcvWnd.toNat by omega,hword]
  · rw [hs.rxq,hempty]
    simp only [unread,flatMap_nil,length_nil,sum_nil]
    omega
  · have := hs.winmax
    omega
  · exact Or.inl ⟨hs.rxExclusive.trans hex,rfl⟩
  · exact fun _ => ⟨hs.rxq.trans hempty,rfl⟩

theorem contiguous_length {ms : List Mbuf} {n' : ℤ} (h : Contiguous Q n ms n') :
    n + (ms.flatMap Mbuf.data).length ≤ n' := by
  induction ms generalizing n with
  | nil =>
    obtain rfl : n = n' := h
    simp
  | cons m ms ih =>
    have := ih h.2
    have := m.length_le_span
    rw [flatMap_cons,length_append]
    omega

theorem Owned.append {new : List Mbuf} (h : Owned c readers)
    (hex : c'.rxExclusive = c.rxExclusive) (hq : c'.rx.rxq = c.rx.rxq ++ new) :
    Owned c' readers ∧ unread c'.rx.rxq readers =
      unread c.rx.rxq readers + (new.flatMap Mbuf.data).length := by
  rw [Owned,hq,hex]
  constructor
  · rcases h with hnone | ⟨hex,k,m,rest,hr,hq,hk⟩
    · exact Or.inl hnone
    · exact Or.inr ⟨hex,k,m,rest ++ new,hr,by rw [hq,cons_append],hk⟩
  · rw [unread,unread,flatMap_append,length_append]
    omega

theorem Inv.taken {x : Item} {n' : ℤ} {new : List Mbuf} {qs' : List Item}
    (h : Inv Q W c readers n e qs) (ht : Taken Q c n e qs x c' n' new qs') :
    Inv Q W c' readers n' e qs' := by
  have hwindow := h.window
  have hlength := contiguous_length ht.filled
  obtain ⟨howned,hunread⟩ := h.owned.append ht.keeps.rxExclusive ht.rxq
  have hnosyn : c'.state ≠ .synSent := fun hs => by
    cases hf : new.any Mbuf.isFin with
    | false => exact ht.past ((ht.later hf).syn hs)
    | true =>
      have := ht.fin hf
      rw [hs] at this
      contradiction
  exact {
    ingress := ht.inv
    window := by omega
    winmax := by rw [ht.keeps.winmax]; exact h.winmax
    owned := howned
    syn := fun hs => absurd hs hnosyn }

/-- The read that is inside the first buffer can take its bytes off. -/
theorem Owned.finish {i k : ℕ} (h : Owned c readers) (hi : readers[i]? = some k) :
    ∃ m rest, c.rx.rxq = m::rest ∧ k < m.data.length ∧ readers = [k] ∧ readers.eraseIdx i = [] ∧
      tcpReadFinish c k = .ok { c with
        rxExclusive := false
        rx := { c.rx with
          rxq := ⟨m.data.drop k,m.segSeq + BitVec.ofNat 32 k,m.segEnd,m.flags⟩::rest } } ∧
      unread (⟨m.data.drop k,m.segSeq + BitVec.ofNat 32 k,m.segEnd,m.flags⟩::rest) [] =
        unread c.rx.rxq readers := by
  rcases h with ⟨-,rfl⟩ | ⟨-,k',m,rest,rfl,hq,hk⟩
  · simp at hi
  have hik : i = 0 ∧ k = k' := by
    cases i with
    | zero => simpa using hi.symm
    | succ i => simp at hi
  obtain ⟨rfl,rfl⟩ := hik
  refine ⟨m,rest,hq,hk,rfl,rfl,?_,?_⟩
  · rw [tcpReadFinish,hq]
    dsimp only
    rw [mbufPull_ok (by omega),ok_bind]
    rfl
  · rw [hq]
    simp only [unread,flatMap_cons,length_append,length_drop,sum_nil,
      sum_singleton]
    omega

theorem Inv.finish {i k : ℕ} (h : Inv Q W c readers n e qs) (hi : readers[i]? = some k) :
    ∃ m rest, c.rx.rxq = m::rest ∧ k < m.data.length ∧ readers = [k] ∧ readers.eraseIdx i = [] ∧
      tcpReadFinish c k = .ok { c with
        rxExclusive := false
        rx := { c.rx with
          rxq := ⟨m.data.drop k,m.segSeq + BitVec.ofNat 32 k,m.segEnd,m.flags⟩::rest } } ∧
      Inv Q W { c with
        rxExclusive := false
        rx := { c.rx with
          rxq := ⟨m.data.drop k,m.segSeq + BitVec.ofNat 32 k,m.segEnd,m.flags⟩::rest } } [] n e qs := by
  obtain ⟨m,rest,hq,hk,hr,herase,hfin,hunread⟩ := h.owned.finish hi
  have hwindow := h.window
  rw [← hunread] at hwindow
  refine ⟨m,rest,hq,hk,hr,herase,hfin,⟨h.ingress.at'.congr rfl rfl,h.ingress.queue,
    h.ingress.sorted,h.ingress.queued⟩,hwindow,h.winmax,Or.inl ⟨rfl,rfl⟩,fun hs => ?_⟩
  have := (h.syn hs).1
  rw [hq] at this
  contradiction

end Invariant

/-! ### Steps -/

/-- All that an event can do, with the positions and the out-of-order queue after it. -/
inductive Moves (Q : Content) (s : Sys) (n e : ℤ) (qs : List Item) :
    Event → Sys → ℤ → ℤ → List Item → Prop
  | quiet {ev : Event} {c' : Conn} (keeps : Keeps s.conn c') (later : Later s.conn.state c'.state) :
    Moves Q s n e qs ev { s with conn := c' } n e qs
  | failed {ev : Event} {c' : Conn} (failed : FailedFrom s.conn c')
    (cause : (∃ err, ev = .fail err) ∨ ∃ env p, ev = .recv env p ∧
      (has p.flags tcpRst = true ∨ has p.flags tcpSyn = true)) :
    Moves Q s n e qs ev { s with conn := c' } n e []
  | synced {env : Env} {p : Packet} {c' : Conn} {n' e' : ℤ} (flag : has p.flags tcpSyn = true) :
    Moves Q s n e qs (.recv env p) { s with conn := c' } n' e' []
  | taken {env : Env} {p : Packet} {c' : Conn} {a n' : ℤ} {new : List Mbuf} {qs' : List Item}
    (seq : p.seq = serial a) (accepted : p.Accepted s.conn) (below : a < e)
    (beyond : n < a + p.segment.span) (taken : Taken Q s.conn n e qs (a,p.segment) c' n' new qs') :
    Moves Q s n e qs (.recv env p)
      { s with conn := c', log := s.log ++ new.flatMap Mbuf.data } n' e qs'
  | shutdown : Moves Q s n e qs .shutdown { s with conn := (tcpConnShutdownRx s.conn).1 } n e qs
  | refused {len : ℕ} (closed : s.conn.rxClosed = true) :
    Moves Q s n e qs (.read len) { s with returns := s.returns ++ [(-s.conn.err,[])] } n e qs
  | read {len : ℕ} (opened : s.conn.rxClosed = false) (free : s.conn.rxExclusive = false)
    (nonempty : s.conn.rx.rxq ≠ []) :
    Moves Q s n e qs (.read len)
      { s with
        conn := (takeText s.conn len).1
        readers := s.readers ++ (takeText s.conn len).2.cpylen.toList
        returns := s.returns ++ [((takeText s.conn len).2.ret,(takeText s.conn len).2.bytes)] }
      n (e + (takeLoop len s.conn.rx.rxq 0).readlen) qs
  | idle {len tries : ℕ} : Moves Q s n e qs (.tryRead len) { s with tries := tries } n e qs
  | tryRead {len tries : ℕ} (free : s.conn.rxExclusive = false) :
    Moves Q s n e qs (.tryRead len)
      { s with
        conn := (takeText s.conn len).1
        readers := s.readers ++ (takeText s.conn len).2.cpylen.toList
        tries := tries }
      n (e + (takeLoop len s.conn.rx.rxq 0).readlen) qs
  | finish {i k : ℕ} {m : Mbuf} {rest : List Mbuf} (reader : s.readers = [k])
    (queue : s.conn.rx.rxq = m::rest) (inside : k < m.data.length) :
    Moves Q s n e qs (.finish i)
      { s with
        conn := { s.conn with
          rxExclusive := false
          rx := { s.conn.rx with
            rxq := ⟨m.data.drop k,m.segSeq + BitVec.ofNat 32 k,m.segEnd,m.flags⟩::rest } }
        readers := [] }
      n e qs
  | tryFinish (free : s.conn.rxExclusive = false) :
    Moves Q s n e qs .tryFinish { s with tries := s.tries-1 } n e qs

/-- What events must bring: packets their text, and `tcp_try_read` no flag of another read. -/
def Allowed (Q : Content) (s : Sys) (n e : ℤ) : Event → Prop
  | .recv _ p => p.Brings Q s.conn n e
  | .tryFinish => s.conn.rxExclusive = false
  | _ => True

/-- The event happens as `Moves` says, or cannot happen now, or is a SYN whose options do not
end. -/
def Sys.Steps (s : Sys) (Q : Content) (W n e : ℤ) (qs : List Item) (ev : Event) : Prop :=
  (∃ s' n' e' qs', s.step ev = .ok (some s') ∧ Moves Q s n e qs ev s' n' e' qs' ∧
    Inv Q W s'.conn s'.readers n' e' qs') ∨
  s.step ev = .ok none ∨
  s.step ev = .error .endless ∧ ∃ env p, ev = .recv env p ∧ has p.flags tcpSyn = true

section Steps

variable {Q : Content} {W n e : ℤ} {s : Sys} {qs : List Item}

theorem recv_steps (hQ : Clippable Q) (hW : W ≤ maxWindow) (h : Inv Q W s.conn s.readers n e qs)
    (env : Env) {p : Packet} (hp : p.Brings Q s.conn n e) : s.Steps Q W n e qs (.recv env p) := by
  have hout := tcpRxConn_outcome env hQ h.ingress hp
  have hstep : ∀ c', Prod.fst <$> tcpRxConn env s.conn p = .ok c' →
      s.step (.recv env p) = .ok (some { s with
        conn := c'
        log := s.log ++ (c'.rx.rxq.drop s.conn.rx.rxq.length).flatMap Mbuf.data }) := by
    intro c' hc
    rw [Sys.step,hc]
    rfl
  have hsame : ∀ c' : Conn, c'.rx.rxq.drop s.conn.rx.rxq.length = [] →
      ({ s with
        conn := c'
        log := s.log ++ (c'.rx.rxq.drop s.conn.rx.rxq.length).flatMap Mbuf.data } : Sys) =
      { s with conn := c' } := by
    intro c' hc
    rw [hc,flatMap_nil,append_nil]
  generalize hres : Prod.fst <$> tcpRxConn env s.conn p = res at hout hstep
  cases hout with
  | @quiet c' hk hl =>
    refine Or.inl ⟨_,n,e,qs,hstep c' rfl,?_,h.keeps hk hl⟩
    rw [hsame c' (by rw [hk.rx,drop_length])]
    exact .quiet hk hl
  | @failed c' hflag hf =>
    refine Or.inl ⟨_,n,e,[],hstep c' rfl,?_,h.failed hf⟩
    rw [hsame c' (by rw [hf.rxq]; split <;> simp)]
    exact .failed hf (Or.inr ⟨env,p,rfl,hflag⟩)
  | @synced c' hwait hflag hs hfin hclosed =>
    obtain ⟨n',e',hinv⟩ := h.synced hW hs hwait
    refine Or.inl ⟨_,n',e',[],hstep c' rfl,?_,hinv⟩
    rw [hsame c' (by rw [hs.rxq,drop_length])]
    exact .synced hflag
  | endless hwait hflag =>
    refine Or.inr (Or.inr ⟨?_,env,p,rfl,hflag⟩)
    rw [Sys.step,hres]
    rfl
  | @taken c' a n' new qs' hseq hacc hbelow hbeyond ht =>
    refine Or.inl ⟨_,n',e,qs',hstep c' rfl,?_,h.taken ht⟩
    rw [ht.rxq,drop_left]
    exact .taken hseq hacc hbelow hbeyond ht

theorem step_steps (hQ : Clippable Q) (hW : W ≤ maxWindow) (h : Inv Q W s.conn s.readers n e qs)
    {ev : Event} (hev : Allowed Q s n e ev) : s.Steps Q W n e qs ev := by
  cases ev with
  | recv env p => exact recv_steps hQ hW h env hev
  | read len =>
    by_cases hblocked : (!s.conn.rxClosed && (s.conn.rxExclusive || s.conn.rx.rxq.isEmpty)) = true
    · exact Or.inr (Or.inl (by rw [Sys.step,tcpReadWait,if_pos hblocked]; rfl))
    left
    cases hclosed : s.conn.rxClosed with
    | true =>
      refine ⟨{ s with returns := s.returns ++ [(-s.conn.err,[])] },n,e,qs,?_,.refused hclosed,h⟩
      rw [Sys.step,tcpReadWait,if_neg hblocked,if_pos hclosed]
      simp
    | false =>
      have hfree : s.conn.rxExclusive = false ∧ s.conn.rx.rxq ≠ [] := by
        simpa [hclosed] using hblocked
      refine ⟨_,n,_,qs,?_,.read hclosed hfree.1 hfree.2,h.take hW hfree.1 len⟩
      rw [Sys.step,tcpReadWait,if_neg hblocked,if_neg (by simp [hclosed])]
      rfl
  | tryRead len =>
    left
    have hstep : ∀ {c r}, tcpReadNowait s.conn len = (c,r) → s.step (.tryRead len) = .ok (some { s with
        conn := c
        readers := s.readers ++ r.cpylen.toList
        tries := s.tries + if 0 < r.ret ∧ r.cpylen = none then 1 else 0 }) := by
      intro c r hc
      rw [Sys.step,hc]
      rfl
    have hidle : ∀ ret, ({ s with
        conn := s.conn
        readers := s.readers ++ (none : Option ℕ).toList
        tries := s.tries + if (0 : ℤ) < ret ∧ (none : Option ℕ) = none then 1 else 0 } : Sys) =
        { s with tries := s.tries + if (0 : ℤ) < ret ∧ (none : Option ℕ) = none then 1 else 0 } := by
      intro ret
      rw [Option.toList_none,append_nil]
    by_cases hbusy : (s.conn.rxExclusive || s.conn.rx.rxq.isEmpty) = true
    · refine ⟨_,n,e,qs,hstep (if_pos hbusy),?_,?_⟩
      · rw [hidle]
        exact .idle
      · rw [hidle]
        exact h
    · have hfree : s.conn.rxExclusive = false :=
        (Bool.or_eq_false_iff.mp (Bool.not_eq_true _ ▸ hbusy)).1
      cases hclosed : s.conn.rxClosed with
      | true =>
        refine ⟨_,n,e,qs,hstep (by rw [tcpReadNowait,if_neg hbusy,if_pos hclosed]),?_,?_⟩
        · rw [hidle]
          exact .idle
        · rw [hidle]
          exact h
      | false =>
        refine ⟨_,n,_,qs,hstep (c:=(takeText s.conn len).1) (r:=(takeText s.conn len).2) ?_,
          .tryRead hfree,h.take hW hfree len⟩
        rw [tcpReadNowait,if_neg hbusy,if_neg (by simp [hclosed])]
  | finish i =>
    cases hi : s.readers[i]? with
    | none =>
      refine Or.inr (Or.inl ?_)
      simp only [Sys.step,hi]
      rfl
    | some k =>
      left
      obtain ⟨m,rest,hq,hk,hr,herase,hfin,hinv⟩ := h.finish hi
      refine ⟨_,n,e,qs,?_,.finish hr hq hk,hinv⟩
      simp only [Sys.step,hi,hfin,ok_bind,herase]
      rfl
  | tryFinish =>
    by_cases htries : s.tries = 0
    · refine Or.inr (Or.inl ?_)
      rw [Sys.step,if_pos htries]
      rfl
    · have hfree : s.conn.rxExclusive = false := hev
      refine Or.inl ⟨{ s with tries := s.tries-1 },n,e,qs,?_,.tryFinish hfree,h⟩
      rw [Sys.step,if_neg htries,tcpTryReadFinish,← hfree]
      rfl
  | shutdown =>
    have hrx : (tcpConnShutdownRx s.conn).1.rx = s.conn.rx := by
      rw [tcpConnShutdownRx]; split <;> rfl
    refine Or.inl ⟨_,n,e,qs,rfl,.shutdown,h.congr hrx ?_ ?_ ?_⟩ <;>
      (dsimp only; rw [tcpConnShutdownRx]; split <;> first | rfl | exact id)
  | fail err =>
    obtain ⟨c',d,hfail,hfrom⟩ := tcpConnFail_ok s.conn err
    refine Or.inl ⟨{ s with conn := c' },n,e,[],?_,.failed hfrom (Or.inl ⟨err,rfl⟩),h.failed hfrom⟩
    rw [Sys.step,hfail]
    rfl
  | send c' =>
    by_cases hl : Later s.conn.state c'.state
    · have hk : Keeps s.conn (s.conn.sent c') := ⟨rfl,rfl,rfl,rfl,rfl,rfl,rfl⟩
      refine Or.inl ⟨_,n,e,qs,?_,.quiet hk hl,h.keeps hk hl⟩
      rw [Sys.step,if_pos hl]
      rfl
    · exact Or.inr (Or.inl (by rw [Sys.step,if_neg hl]; rfl))

/-- A property of states with their positions that every allowed event keeps holds along runs,
and no event of a run aborts but a SYN whose options do not end. -/
theorem Run.positions {ok : Sys → Event → Prop} {P : Sys → ℤ → ℤ → List Item → Prop} {s' : Sys}
    (hQ : Clippable Q) (hW : W ≤ maxWindow)
    (hallowed : ∀ s n e qs ev, P s n e qs → ok s ev → Inv Q W s.conn s.readers n e qs →
      Allowed Q s n e ev)
    (hmove : ∀ s n e qs ev s' n' e' qs', P s n e qs → ok s ev → Inv Q W s.conn s.readers n e qs →
      Moves Q s n e qs ev s' n' e' qs' → P s' n' e' qs')
    (h : Run ok s s') (hinv : Inv Q W s.conn s.readers n e qs) (hP : P s n e qs) :
    (∃ n' e' qs', Inv Q W s'.conn s'.readers n' e' qs' ∧ P s' n' e' qs') ∧
      ∀ ev, ok s' ev → ∀ a, s'.step ev = .error a →
        a = .endless ∧ ∃ env p, ev = .recv env p ∧ has p.flags tcpSyn = true := by
  have hreach : ∃ n' e' qs', Inv Q W s'.conn s'.readers n' e' qs' ∧ P s' n' e' qs' := by
    refine h.invariant (P:=fun s' => ∃ n' e' qs', Inv Q W s'.conn s'.readers n' e' qs' ∧
      P s' n' e' qs') ⟨n,e,qs,hinv,hP⟩ ?_
    rintro s₁ ev s₂ ⟨n₁,e₁,qs₁,hinv₁,hP₁⟩ hok hstep
    rcases step_steps hQ hW hinv₁ (hallowed _ _ _ _ _ hP₁ hok hinv₁) with
      ⟨s₃,n₂,e₂,qs₂,hstep',hmoves,hinv₂⟩ | hnone | ⟨herr,-⟩
    · rw [hstep] at hstep'
      obtain rfl := Option.some.inj (Except.ok.inj hstep')
      exact ⟨n₂,e₂,qs₂,hinv₂,hmove _ _ _ _ _ _ _ _ _ hP₁ hok hinv₁ hmoves⟩
    · rw [hstep] at hnone
      simp at hnone
    · rw [hstep] at herr
      contradiction
  refine ⟨hreach,fun ev hok a ha => ?_⟩
  obtain ⟨n',e',qs',hinv',hP'⟩ := hreach
  rcases step_steps hQ hW hinv' (hallowed _ _ _ _ _ hP' hok hinv') with
    ⟨s₃,n₂,e₂,qs₂,hstep,-⟩ | hnone | ⟨herr,hsyn⟩
  · rw [hstep] at ha
    contradiction
  · rw [hnone] at ha
    contradiction
  · rw [herr] at ha
    exact ⟨(Except.error.inj ha).symm,hsyn⟩

/-- A connection that has received nothing yet, with a window that leaves half the circle
free. -/
structure Fresh (W : ℤ) (c : Conn) : Prop where
  rxq : c.rx.rxq = []
  rxqOoo : c.rx.rxqOoo = []
  rxExclusive : c.rxExclusive = false
  rcvWnd : (c.rx.rcvWnd.toNat : ℤ) ≤ W
  winmax : (c.winmax.toNat : ℤ) ≤ W

theorem Fresh.inv {c : Conn} (h : Fresh W c) (hW : W ≤ maxWindow) (hn : c.rx.rcvNxt = serial n) :
    Inv Q W (Sys.start c).conn (Sys.start c).readers n (n + c.rx.rcvWnd.toNat) [] := by
  have hwnd := h.rcvWnd
  refine ⟨⟨⟨hn,?_,by omega,by omega⟩,h.rxqOoo,List.Pairwise.nil,by simp⟩,?_,h.winmax,
    Or.inl ⟨h.rxExclusive,rfl⟩,fun _ => ⟨h.rxq,rfl⟩⟩
  · rw [show n + (c.rx.rcvWnd.toNat : ℤ) - n = c.rx.rcvWnd.toNat by omega,serial_self]
    rfl
  · change n + (c.rx.rcvWnd.toNat : ℤ) - n + unread c.rx.rxq [] ≤ W
    rw [h.rxq]
    simp only [unread,flatMap_nil,length_nil,sum_nil]
    omega

end Steps

/-! ### Runs that can be computed -/

def Sys.next (s : Sys) (ev : Event) : Sys :=
  match s.step ev with
  | .ok (some t) => t
  | _ => s

def Sys.happens (s : Sys) (ev : Event) : Bool := ((s.step ev).toOption.bind id).isSome

theorem Run.next {ok : Sys → Event → Prop} {s t : Sys} (h : Run ok s t) (ev : Event) (hok : ok t ev)
    (hev : t.happens ev = true) : Run ok s (t.next ev) := by
  refine h.tail ⟨ev,hok,?_⟩
  rw [Sys.happens] at hev
  rw [Sys.next]
  cases hstep : t.step ev with
  | error a => simp [hstep,Except.toOption] at hev
  | ok r =>
    cases r with
    | none => simp [hstep,Except.toOption] at hev
    | some t' => rfl

def Sys.aborts (s : Sys) (ev : Event) : Option Abort :=
  match s.step ev with
  | .error a => some a
  | .ok _ => none

theorem Sys.step_of_aborts {s : Sys} {ev : Event} {a : Abort} (h : s.aborts ev = some a) :
    s.step ev = .error a := by
  rw [Sys.aborts] at h
  cases hstep : s.step ev with
  | error b =>
    rw [hstep] at h
    rw [Option.some.inj h]
  | ok r =>
    rw [hstep] at h
    contradiction

/-- A connection that has just been established, with a window of `wnd` bytes and all
numbers from 0 on. -/
def Conn.opened (wnd : BitVec 32) : Conn where
  state := .established
  sndUna := 1
  sndNxt := 1
  sndWnd := 1000
  sndWl1 := 0
  sndWl2 := 0
  iss := 0
  sndWscale := 0
  sndMss := 1460
  irs := 0
  rcvWscale := 0
  rcvMss := 1460
  err := 0
  winmax := wnd
  rxClosed := false
  rxExclusive := false
  rx := ⟨1,wnd,[],[],0⟩
  txClosed := false
  txExclusive := false
  txLastAck := 1
  txLastWin := wnd
  txPending := none
  txq := []
  doFastRetransmit := false
  fastRetransmitLastAck := 0
  ackDelayed := false
  repAcks := 0
  acksDelayedCnt := 0

/-- The receipt of a segment without options that acknowledges `snd_nxt` of such a
connection. -/
def Event.arrive (seq : BitVec 32) (bytes : List UInt8) (flags : Flags)
    (h : bytes.length ≤ 65515) : Event :=
  .recv ⟨1,.sent⟩ ⟨seq,1,1000,5,flags,bytes,fun _ => 0,h⟩

theorem fresh_opened (wnd : BitVec 32) (h : wnd.toNat ≤ 0x1ffff) : Fresh maxWindow (.opened wnd) :=
  ⟨rfl,rfl,rfl,by change (wnd.toNat : ℤ) ≤ maxWindow; unfold maxWindow; omega,
    by change (wnd.toNat : ℤ) ≤ maxWindow; unfold maxWindow; omega⟩

end Vessel.Tcp
