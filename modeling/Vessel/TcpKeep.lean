import Vessel.Pieces
import Vessel.TcpAccepted

/-! The sender keeps what is not acknowledged.  The bytes that were copied are a stream, of which
`txq` and `tx_pending` hold the end, and `snd_una` and `snd_nxt` are the words of two of its
positions. -/
namespace Vessel.TcpSend

open Tcp Serial Pieces

/-- The largest window that a packet can offer. -/
def maxSendWindow : ℕ := 65535*2^14

/-- The buffers of the sender, in order. -/
def segments (c : Conn) : List Mbuf := c.txq++c.txPending.toList

/-- The payload has the byte with this number. -/
def Covers (m : Mbuf) (q : BitVec 32) : Prop := (q-m.segSeq).toNat < m.data.length

instance (m : Mbuf) (q : BitVec 32) : Decidable (Covers m q) :=
  inferInstanceAs (Decidable (_ < _))

/-- The packet acknowledges a number from `snd_una` to `snd_nxt`, or an older one, or one past the
`snd_nxt` it has loaded. -/
def ackInOrder (s : Sys) : Event → Bool
  | .recv i _ p =>
    match s.loads[i]? with
    | none => true
    | some nxt =>
      (p.ack-s.conn.sndUna).toNat ≤ (s.conn.sndNxt-s.conn.sndUna).toNat ||
        (s.conn.sndUna-p.ack).toNat < 2^31 ||
        (0 < (p.ack-nxt).toNat && (p.ack-nxt).toNat < 2^31)
  | _ => true

def inOrder (s : Sys) (ev : Event) : Bool := !gap s ev && ackInOrder s ev

/-- What the sender promises before it sends a FIN. -/
structure Kept (s : Sys) : Prop where
  ordered : wrapsLte s.conn.sndUna s.conn.sndNxt = true
  forward : ∀ ev t,inOrder s ev → s.step ev = some t → t.conn.state ≠ .closed → t.fins = [] →
    wrapsLte s.conn.sndUna t.conn.sndUna = true
  covered : ∀ q,(q-s.conn.sndUna).toNat < (s.conn.sndNxt-s.conn.sndUna).toNat →
    ∃! i : ℕ,∃ m,(segments s.conn)[i]? = some m ∧ Covers m q
  /-- The byte with number `q` is the one that was accepted that far before the end. -/
  bytes : ∀ q,(q-s.conn.sndUna).toNat < (s.conn.sndNxt-s.conn.sndUna).toNat →
    ∀ m ∈ segments s.conn,Covers m q → m.data[(q-m.segSeq).toNat]? =
      s.accepted[s.accepted.length-(s.conn.sndNxt-q).toNat]?
  short : ∀ m ∈ segments s.conn,m.data.length ≤ s.conn.sndMss
  window : ∀ k ∈ s.writer.call?,wrapsLte s.conn.sndNxt k.edge = true

/-! ### Positions -/

/-- The buffer holds a piece of the stream. -/
structure At (o : ℤ) (m : Mbuf) (p : Piece UInt8) : Prop where
  data : m.data = p.bytes
  segSeq : m.segSeq = serial (o+p.start)
  segEnd : m.segEnd = serial (o+p.stop)

def Sys.stream (s : Sys) : List UInt8 := s.handed++pendingData s.conn

/-- The writer stays within the window that it has read, which ends before `limit`. -/
def Writer.Room (o : ℤ) (len limit : ℕ) : Writer → Prop
  | .next k => k.edge = serial (o+(len+k.winlen : ℕ)) ∧ len+k.winlen ≤ limit
  | .sending k rest pos _ => pos+rest.length ≤ k.winlen ∧
      k.edge = serial (o+(len+(k.winlen-pos) : ℕ)) ∧ len+(k.winlen-pos) ≤ limit
  | .finishing k => ∃ n : ℕ,k.edge = serial (o+(len+n : ℕ)) ∧ len+n ≤ limit
  | .idle | .resending _ => True

/-- Where the words of a connection are in the stream: `una` is the position of `snd_una`, `seen`
the one it had when `tx_exclusive` was last taken, and the buffers lead from `base` to the end. -/
structure Layout where
  una : ℕ
  seen : ℕ
  base : ℕ
  queued : List (Piece UInt8)
  kept : List (Piece UInt8)

structure Laid (o : ℤ) (s : Sys) (l : Layout) : Prop where
  una : s.conn.sndUna = serial (o+l.una)
  nxt : s.conn.sndNxt = serial (o+s.stream.length)
  txq : List.Forall₂ (At o) s.conn.txq l.queued
  pending : List.Forall₂ (At o) s.conn.txPending.toList l.kept
  chain : Chain s.stream l.una l.base (l.queued++l.kept) s.stream.length
  short : ∀ p ∈ l.queued++l.kept,p.bytes.length ≤ s.conn.sndMss
  base_le : l.base ≤ l.una
  seen_le : l.seen ≤ l.una
  una_le : l.una ≤ s.stream.length
  near : l.seen ≤ l.base+s.conn.sndMss
  full : s.stream.length ≤ l.seen+maxSendWindow
  room : s.writer.Room o s.stream.length (l.seen+maxSendWindow)
  trimmed : s.conn.txExclusive = false → ∀ p ∈ l.queued.head?,l.una < p.stop

/-- The parameters of the connection are as the handshake leaves them. -/
structure Negotiated (c : Conn) : Prop where
  mss : c.sndMss ≤ 65535
  wscale : c.sndWscale ≤ 14
  wnd : c.sndWnd.toNat ≤ maxSendWindow

variable {s t : Sys} {ev : Event} {c c' : Conn} {o : ℤ} {l : Layout} {m : Mbuf} {p : Piece UInt8}

/-! ### What a layout says -/

section Layouts

variable (h : Laid o s l) (hmss : s.conn.sndMss ≤ 65535)
include h hmss

theorem Laid.span : s.stream.length < l.base+2^31 := by
  have := h.near
  have := h.full
  rw [maxSendWindow] at this
  omega

theorem Laid.nxt_sub_una : (s.conn.sndNxt-s.conn.sndUna).toNat = s.stream.length-l.una := by
  have := h.span hmss
  have := h.base_le
  have := h.una_le
  rw [h.nxt,h.una,serial_sub,serial_toNat (by omega) (by omega)]
  omega

theorem Laid.ordered : wrapsLte s.conn.sndUna s.conn.sndNxt = true := by
  have := h.span hmss
  have := h.base_le
  have := h.una_le
  rw [h.nxt,h.una,wrapsLte_serial (by omega) (by omega)]
  omega

omit hmss in
theorem Laid.segments : List.Forall₂ (At o) (segments s.conn) (l.queued++l.kept) :=
  List.rel_append h.txq h.pending

theorem Laid.position {q : BitVec 32}
    (hq : (q-s.conn.sndUna).toNat < (s.conn.sndNxt-s.conn.sndUna).toNat) :
    ∃ x : ℕ,l.una ≤ x ∧ x < s.stream.length ∧ q = serial (o+x) := by
  rw [h.nxt_sub_una hmss] at hq
  refine ⟨l.una+(q-s.conn.sndUna).toNat,by omega,by omega,?_⟩
  rw [Nat.cast_add,← Int.add_assoc,← serial_add,← h.una,serial_self,BitVec.add_comm,
    BitVec.sub_add_cancel]

theorem Laid.covers_iff (hp : p ∈ l.queued++l.kept) (hat : At o m p) {x : ℕ} (hlo : l.una ≤ x)
    (hhi : x < s.stream.length) : Covers m (serial (o+x)) ↔ p.start ≤ x ∧ x < p.stop := by
  have := h.span hmss
  have := h.base_le
  obtain ⟨hbase,hstop,-⟩ := h.chain.mem hp
  rw [Covers,hat.segSeq,hat.data,serial_sub]
  rw [Piece.stop] at hstop ⊢
  by_cases hx : p.start ≤ x
  · rw [serial_toNat (by omega) (by omega)]
    omega
  · -- the number before a piece is a circle further on
    have hcircle : o+x-(o+p.start) = (x-p.start+2^32)-2^32 := by omega
    rw [hcircle,serial_sub_circle,serial_toNat (by omega) (by omega)]
    omega

theorem Laid.covered {q : BitVec 32}
    (hq : (q-s.conn.sndUna).toNat < (s.conn.sndNxt-s.conn.sndUna).toNat) :
    ∃! i : ℕ,∃ m,(TcpSend.segments s.conn)[i]? = some m ∧ Covers m q := by
  obtain ⟨x,hlo,hhi,rfl⟩ := h.position hmss hq
  obtain ⟨i,p,hi,hp⟩ := h.chain.covers (h.base_le.trans hlo) hlo hhi
  obtain ⟨m,hm,hat⟩ := exists_left (h.segments) hi
  have hcovers := (h.covers_iff hmss (List.mem_of_getElem? hi) hat hlo hhi).mpr hp
  refine ⟨i,⟨m,hm,hcovers⟩,?_⟩
  rintro j ⟨m',hm',hcovers'⟩
  obtain ⟨p',hj,hat'⟩ := exists_right (h.segments) hm'
  have hp' := (h.covers_iff hmss (List.mem_of_getElem? hj) hat' hlo hhi).mp hcovers'
  exact h.chain.unique hj hi hp'.1 hp'.2 hp.1 hp.2

theorem Laid.bytes {q : BitVec 32}
    (hq : (q-s.conn.sndUna).toNat < (s.conn.sndNxt-s.conn.sndUna).toNat)
    (hm : m ∈ TcpSend.segments s.conn) (hcovers : Covers m q) : m.data[(q-m.segSeq).toNat]? =
      s.stream[s.stream.length-(s.conn.sndNxt-q).toNat]? := by
  obtain ⟨x,hlo,hhi,rfl⟩ := h.position hmss hq
  obtain ⟨i,hi⟩ := List.getElem?_of_mem hm
  obtain ⟨p,hp,hat⟩ := exists_right (h.segments) hi
  have hmem := List.mem_of_getElem? hp
  obtain ⟨hstart,hstop⟩ := (h.covers_iff hmss hmem hat hlo hhi).mp hcovers
  have hspan := h.span hmss
  obtain ⟨hbase,-,hin⟩ := h.chain.mem hmem
  have hpos : (serial (o+x)-m.segSeq).toNat = x-p.start := by
    rw [hat.segSeq,serial_sub,serial_toNat (by omega) (by omega)]
    omega
  have hend : s.stream.length-(s.conn.sndNxt-serial (o+x)).toNat = x := by
    rw [h.nxt,serial_sub,serial_toNat (by omega) (by omega)]
    omega
  rw [hpos,hend,hat.data]
  exact hin.getElem? hstart hstop

omit hmss in
theorem Laid.shortSegments (hm : m ∈ TcpSend.segments s.conn) : m.data.length ≤ s.conn.sndMss := by
  obtain ⟨i,hi⟩ := List.getElem?_of_mem hm
  obtain ⟨p,hp,hat⟩ := exists_right (h.segments) hi
  rw [hat.data]
  exact h.short p (List.mem_of_getElem? hp)

omit hmss in
theorem Laid.window {k : Call} (hk : k ∈ s.writer.call?) :
    wrapsLte s.conn.sndNxt k.edge = true := by
  have hseen := h.seen_le.trans h.una_le
  obtain ⟨n,hedge,hn⟩ : ∃ n : ℕ,k.edge = serial (o+(s.stream.length+n : ℕ)) ∧
      s.stream.length+n ≤ l.seen+maxSendWindow := by
    have hroom := h.room
    cases hw : s.writer with
    | idle | resending i => simp [hw,Writer.call?] at hk
    | next k' =>
      obtain rfl : k' = k := by simpa [hw,Writer.call?] using hk
      rw [hw] at hroom
      exact ⟨_,hroom⟩
    | sending k' rest pos push =>
      obtain rfl : k' = k := by simpa [hw,Writer.call?] using hk
      rw [hw] at hroom
      exact ⟨_,hroom.2⟩
    | finishing k' =>
      obtain rfl : k' = k := by simpa [hw,Writer.call?] using hk
      rw [hw] at hroom
      exact hroom
  rw [maxSendWindow] at hn
  rw [h.nxt,hedge,wrapsLte_serial (by push_cast; omega) (by push_cast; omega)]
  push_cast
  omega

end Layouts

/-! ### Steps -/

theorem acked_laid {stream : List UInt8} {u b e : ℕ} {ms : List Mbuf} {qs ps : List (Piece UInt8)}
    (hat : List.Forall₂ (At o) ms qs) (hchain : Chain stream u b (qs++ps) e) (hb : b ≤ u)
    (hu : u ≤ e) (hspan : e < b+2^31) : ∃ qs' b',
      List.Forall₂ (At o) (ackedPrefix (serial (o+u)) ms).2 qs' ∧ Chain stream u b' (qs'++ps) e ∧
        b ≤ b' ∧ b' ≤ u ∧ (∀ p ∈ qs'.head?,u < p.stop) ∧ qs' ⊆ qs := by
  induction hat generalizing b with
  | nil => exact ⟨[],b,.nil,hchain,le_rfl,hb,by simp,List.Subset.refl _⟩
  | @cons m p ms qs hmp hms ih =>
    have hmem := hchain.mem List.mem_cons_self
    have htail := hchain.2.2.2
    have hle := htail.le
    have hstart : p.start ≤ p.stop := Nat.le_add_right _ _
    rw [ackedPrefix,hmp.segEnd]
    have hgt : wrapsGt (serial (o+p.stop)) (serial (o+u)) = true ↔ u < p.stop := by
      rw [wrapsGt_serial (by omega) (by omega)]
      omega
    by_cases hstop : u < p.stop
    · rw [if_pos (hgt.mpr hstop)]
      exact ⟨p::qs,b,.cons hmp hms,hchain,le_rfl,hb,by simpa using hstop,List.Subset.refl _⟩
    · rw [if_neg (fun hlt => hstop (hgt.mp hlt))]
      obtain ⟨qs',b',hat',hchain',hb',hbu,hhead,hsub⟩ := ih htail (by omega) (by omega)
      exact ⟨qs',b',hat',hchain',by omega,hbu,hhead,fun x hx => List.mem_cons_of_mem _ (hsub hx)⟩

theorem stream_eq (hpending : t.conn.txPending = s.conn.txPending) (hhanded : t.handed = s.handed) :
    t.stream = s.stream := by
  rw [Sys.stream,Sys.stream,pendingData,pendingData,hpending,hhanded]

theorem Laid.keep (h : Laid o s l) (huna : t.conn.sndUna = s.conn.sndUna)
    (hnxt : t.conn.sndNxt = s.conn.sndNxt) (hmss : t.conn.sndMss = s.conn.sndMss)
    (htxq : t.conn.txq = s.conn.txq) (hpending : t.conn.txPending = s.conn.txPending)
    (hhanded : t.handed = s.handed)
    (hroom : t.writer.Room o s.stream.length (l.seen+maxSendWindow))
    (hex : t.conn.txExclusive = false → s.conn.txExclusive = false) : Laid o t l := by
  have hstream := stream_eq hpending hhanded
  obtain ⟨h₁,h₂,h₃,h₄,h₅,h₆,h₇,h₈,h₉,h₁₀,h₁₁,-,h₁₃⟩ := h
  refine ⟨huna.trans h₁,?_,htxq ▸ h₃,hpending ▸ h₄,?_,?_,h₇,h₈,?_,?_,?_,?_,fun ht => h₁₃ (hex ht)⟩
  · rw [hnxt,hstream,h₂]
  · rwa [hstream]
  · rwa [hmss]
  · rwa [hstream]
  · rwa [hmss]
  · rwa [hstream]
  · rwa [hstream]

/-- Bytes are acknowledged up to `u`, and the buffers before it are taken off unless somebody has
`tx_exclusive`. -/
theorem Laid.ack (h : Laid o s l) (hmss : s.conn.sndMss ≤ 65535) {u : ℕ} (hlo : l.una ≤ u)
    (hhi : u ≤ s.stream.length) (huna : t.conn.sndUna = serial (o+u))
    (hnxt : t.conn.sndNxt = s.conn.sndNxt) (hmss' : t.conn.sndMss = s.conn.sndMss)
    (hpending : t.conn.txPending = s.conn.txPending) (hhanded : t.handed = s.handed)
    (hroom : t.writer.Room o s.stream.length (l.seen+maxSendWindow))
    (htxq : t.conn.txq = (ackedPrefix t.conn.sndUna s.conn.txq).2 ∨
      t.conn.txq = s.conn.txq ∧ t.conn.txExclusive = true) :
    ∃ l',Laid o t l' ∧ l'.una = u := by
  have hstream := stream_eq hpending hhanded
  have hchain := h.chain.mono hlo
  have hspan := h.span hmss
  obtain ⟨h₁,h₂,h₃,h₄,h₅,h₆,h₇,h₈,h₉,h₁₀,h₁₁,-,h₁₃⟩ := h
  rcases htxq with htxq | ⟨htxq,hex⟩
  · obtain ⟨qs',b',hat',hchain',hb',hbu,hhead,hsub⟩ := acked_laid h₃ hchain (h₇.trans hlo) hhi hspan
    refine ⟨⟨u,l.seen,b',qs',l.kept⟩,⟨huna,?_,?_,hpending ▸ h₄,?_,?_,hbu,h₈.trans hlo,?_,?_,?_,?_,
      fun _ => hhead⟩,rfl⟩
    · rw [hnxt,hstream,h₂]
    · rwa [htxq,huna]
    · rwa [hstream]
    · rw [hmss']
      intro p hp
      refine h₆ p ?_
      rcases List.mem_append.mp hp with hp | hp
      · exact List.mem_append_left _ (hsub hp)
      · exact List.mem_append_right _ hp
    · rwa [hstream]
    · rw [hmss']
      exact h₁₀.trans (Nat.add_le_add_right hb' _)
    · rwa [hstream]
    · rwa [hstream]
  · refine ⟨⟨u,l.seen,l.base,l.queued,l.kept⟩,⟨huna,?_,htxq ▸ h₃,hpending ▸ h₄,?_,?_,h₇.trans hlo,
      h₈.trans hlo,?_,?_,?_,?_,fun ht => ?_⟩,rfl⟩
    · rw [hnxt,hstream,h₂]
    · rwa [hstream]
    · rwa [hmss']
    · rwa [hstream]
    · rwa [hmss']
    · rwa [hstream]
    · rwa [hstream]
    · simp [ht] at hex

theorem Laid.enter (h : Laid o s l) (hfree : s.conn.txExclusive = false) (hidle : s.writer = .idle) :
    ∃ l',Laid o s l' ∧ l'.una = l.una ∧ l'.seen = l.una := by
  have htrimmed := h.trimmed hfree
  obtain ⟨b,hchain,hb,hnear⟩ : ∃ b,Chain s.stream l.una b (l.queued++l.kept) s.stream.length ∧
      b ≤ l.una ∧ l.una ≤ b+s.conn.sndMss := by
    have hchain := h.chain
    have hshort := h.short
    have hbase := h.base_le
    have huna := h.una_le
    cases hq : l.queued with
    | cons p qs =>
      rw [hq] at hchain hshort htrimmed
      have hstop := htrimmed p rfl
      have hlen := hshort p (by simp)
      obtain ⟨-,hgap,hin,htail⟩ := hchain
      rw [Piece.stop] at hstop
      exact ⟨p.start,⟨le_rfl,.inl rfl,hin,htail⟩,by omega,by omega⟩
    | nil =>
      rw [hq] at hchain hshort
      cases hk : l.kept with
      | nil =>
        rw [hk] at hchain
        have hend : l.base = s.stream.length := hchain
        exact ⟨l.base,hchain,hbase,by omega⟩
      | cons p ps =>
        rw [hk] at hchain hshort
        have hlen := hshort p (by simp)
        obtain ⟨-,hgap,hin,htail⟩ := hchain
        have hps : ps = [] := by
          have hpending := h.pending
          rw [hk] at hpending
          cases hp : s.conn.txPending <;> simp_all
        have hend : p.stop = s.stream.length := by
          rw [hps] at htail
          exact htail
        rw [Piece.stop] at hend
        exact ⟨p.start,⟨le_rfl,.inl rfl,hin,htail⟩,by omega,by omega⟩
  have hfull := h.full.trans (Nat.add_le_add_right h.seen_le _)
  exact ⟨⟨l.una,l.una,b,l.queued,l.kept⟩,⟨h.una,h.nxt,h.txq,h.pending,hchain,h.short,hb,le_rfl,h.una_le,
    hnear,hfull,by rw [hidle]; trivial,fun _ => htrimmed⟩,rfl,rfl⟩

theorem Laid.winlen (h : Laid o s l) (hneg : Negotiated s.conn)
    (hfull : tcpIsSndFull s.conn = false) : ∃ n : ℕ,
      (s.conn.sndUna+s.conn.sndWnd-s.conn.sndNxt).toNat = n ∧
        s.conn.sndUna+s.conn.sndWnd = serial (o+(s.stream.length+n : ℕ)) ∧
          s.stream.length+n ≤ l.una+maxSendWindow := by
  have hspan := h.span hneg.mss
  have hbase := h.base_le
  have huna := h.una_le
  have hwnd := hneg.wnd
  have hedge : s.conn.sndUna+s.conn.sndWnd = serial (o+(l.una+s.conn.sndWnd.toNat : ℕ)) := by
    rw [h.una,Nat.cast_add,← Int.add_assoc,← serial_add (o+l.una),serial_self]
  rw [tcpIsSndFull,hedge,h.nxt,Bool.eq_false_iff] at hfull
  have hlt : s.stream.length < l.una+s.conn.sndWnd.toNat := by
    rw [maxSendWindow] at hwnd
    by_contra hle
    refine hfull ((wrapsLte_serial ?_ ?_).mpr ?_) <;> push_cast <;> omega
  refine ⟨l.una+s.conn.sndWnd.toNat-s.stream.length,?_,?_,by omega⟩
  · rw [maxSendWindow] at hwnd
    rw [hedge,h.nxt,serial_sub,serial_toNat (by push_cast; omega) (by push_cast; omega)]
    push_cast
    omega
  · rw [hedge]
    congr 3
    omega

/-! ### The writer -/

section Room

variable {len limit pos : ℕ} {k : Call} {rest : List UInt8} {push : Bool}

theorem Room.nextIov (h : (Writer.next k).Room o len limit) : k.nextIov.Room o len limit := by
  rw [Call.nextIov]
  split
  · exact ⟨k.winlen,h⟩
  split
  · exact ⟨k.winlen,h⟩
  · refine ⟨?_,h⟩
    change 0+(List.take k.winlen _).length ≤ k.winlen
    rw [List.length_take]
    omega

theorem Room.sent (h : (Writer.sending k rest pos push).Room o len limit) :
    (k.sent pos).Room o len limit := by
  rw [Call.sent]
  split
  · exact h.2
  · exact ⟨k.winlen-pos,h.2⟩

theorem Room.copied {n : ℕ} (h : (Writer.sending k rest pos push).Room o len limit)
    (hn : n ≤ rest.length) : (Writer.sending { k with done := k.done+n } (rest.drop n) (pos+n)
      push).Room o (len+n) limit := by
  obtain ⟨hrest,hedge,hlimit⟩ := h
  have heq : len+n+(k.winlen-(pos+n)) = len+(k.winlen-pos) := by omega
  refine ⟨?_,?_,?_⟩
  · change pos+n+(rest.drop n).length ≤ k.winlen
    rw [List.length_drop]
    omega
  · change k.edge = serial (o+(len+n+(k.winlen-(pos+n)) : ℕ))
    rw [heq]
    exact hedge
  · change len+n+(k.winlen-(pos+n)) ≤ limit
    rw [heq]
    exact hlimit

end Room

section Copy

variable {rest : List UInt8} {n : ℕ}

theorem serial_succ (x n : ℕ) : serial (o+x)+BitVec.ofNat 32 n = serial (o+(x+n : ℕ)) := by
  rw [← serial_natCast,serial_add,Nat.cast_add,Int.add_assoc]

theorem Laid.filled (h : Laid o s l) (hfilled : Filled s.conn rest c m n) : ∃ x : Piece UInt8,
    At o m x ∧ x.bytes.length ≤ s.conn.sndMss ∧ Chain (s.stream++rest.take n) l.una l.base
      (l.queued++[x]) (s.stream++rest.take n).length := by
  have hlen : (rest.take n).length = n := by
    rw [List.length_take]
    exact min_eq_left hfilled.fits
  have hpending := h.pending
  have hchain := h.chain
  obtain ⟨-,hmss,hdata,hseq,hend,-⟩ := hfilled
  cases hp : s.conn.txPending with
  | none =>
    rw [hp] at hpending hseq hend
    rw [List.forall₂_nil_left_iff.mp hpending,List.append_nil] at hchain
    have hnil : pendingData s.conn = [] := by rw [pendingData,hp]; rfl
    rw [hnil] at hmss hdata
    refine ⟨⟨s.stream.length,rest.take n⟩,⟨hdata,hseq.trans h.nxt,?_⟩,?_,hchain.push _⟩
    · rw [hend,Piece.stop,hlen,← serial_succ,← h.nxt]
      rfl
    · rw [hlen]
      exact hmss
  | some m₀ =>
    rw [hp] at hpending hseq hend
    obtain ⟨p₀,ps,hat,hps,hk⟩ := List.forall₂_cons_left_iff.mp hpending
    rw [List.forall₂_nil_left_iff.mp hps] at hk
    have hshort := h.short p₀ (by simp [hk])
    have hbytes : pendingData s.conn = p₀.bytes := by
      rw [pendingData,hp]
      exact hat.data
    rw [hk] at hchain
    rw [hbytes] at hmss hdata
    refine ⟨⟨p₀.start,p₀.bytes++rest.take n⟩,⟨hdata,hseq.trans hat.segSeq,?_⟩,?_,hchain.extend _⟩
    · rw [hend,Option.map_some,Option.getD_some,hat.segEnd,serial_succ]
      simp only [Piece.stop,List.length_append,hlen]
      congr 3
      omega
    · rw [List.length_append,hlen]
      omega

theorem Laid.copied (h : Laid o s l) (hfilled : Filled s.conn rest c m n)
    (hex : s.conn.txExclusive = true) {rest' : List UInt8} {push : Bool} {w : Writer}
    (hroom : w.Room o (s.stream.length+n) (l.seen+maxSendWindow))
    (hfull : s.stream.length+n ≤ l.seen+maxSendWindow) :
    ∃ l',Laid o { s with
      conn := txEmit c m rest' push
      handed := if txHolds c m rest' push then s.handed else s.handed++m.data
      writer := w } l' ∧ l'.una = l.una := by
  obtain ⟨x,hat,hshort,hchain⟩ := h.filled hfilled
  have hlen : (s.stream++rest.take n).length = s.stream.length+n := by
    rw [List.length_append,List.length_take,min_eq_left hfilled.fits]
  have hstream : ({ s with
      conn := txEmit c m rest' push
      handed := if txHolds c m rest' push then s.handed else s.handed++m.data
      writer := w } : Sys).stream = s.stream++rest.take n := emit_stream hfilled rest' s.handed
  have hnxt : c.sndNxt = serial (o+(s.stream.length+n : ℕ)) := by
    rw [hfilled.conn,← serial_succ,← h.nxt]
  have hshort' : ∀ p ∈ l.queued++[x],p.bytes.length ≤ s.conn.sndMss := by
    intro p hp
    rcases List.mem_append.mp hp with hp | hp
    · exact h.short p (List.mem_append_left _ hp)
    · rwa [List.mem_singleton.mp hp]
  have huna : l.una ≤ s.stream.length+n := h.una_le.trans (Nat.le_add_right _ _)
  generalize hconn : txEmit c m rest' push = c' at hstream ⊢
  obtain ⟨queued,kept,htxq,hpending,hpieces⟩ : ∃ queued kept,List.Forall₂ (At o) c'.txq queued ∧
      List.Forall₂ (At o) c'.txPending.toList kept ∧ queued++kept = l.queued++[x] := by
    rw [← hconn,txEmit,hfilled.conn]
    split
    · exact ⟨l.queued,[x],h.txq,.cons hat .nil,rfl⟩
    · refine ⟨l.queued++[x],[],List.rel_append h.txq (.cons ?_ .nil),.nil,List.append_nil _⟩
      exact ⟨hat.data,hat.segSeq,hat.segEnd⟩
  obtain ⟨hcuna,hcnxt,hcmss,hcex⟩ : c'.sndUna = s.conn.sndUna ∧ c'.sndNxt = c.sndNxt ∧
      c'.sndMss = s.conn.sndMss ∧ c'.txExclusive = s.conn.txExclusive := by
    rw [← hconn,txEmit,hfilled.conn]
    split <;> exact ⟨rfl,rfl,rfl,rfl⟩
  refine ⟨⟨l.una,l.seen,l.base,queued,kept⟩,⟨hcuna.trans h.una,?_,htxq,hpending,?_,?_,h.base_le,
    h.seen_le,?_,?_,?_,?_,fun ht => ?_⟩,rfl⟩
  · rw [hstream,hlen]
    exact hcnxt.trans hnxt
  · rw [hstream,hpieces]
    exact hchain
  · rw [hpieces,hcmss]
    exact hshort'
  · rwa [hstream,hlen]
  · rw [hcmss]
    exact h.near
  · rwa [hstream,hlen]
  · rwa [hstream,hlen]
  · rw [hcex,hex] at ht
    cases ht

end Copy

theorem Laid.resent (h : Laid o s l) (hmss : s.conn.sndMss ≤ 65535) {m' : Mbuf} {inPlace : Bool}
    (hp : p ∈ l.queued++l.kept) (hat : At o m p)
    (hone : tcpTxRetransmitOne s.conn.sndUna inPlace m = .ok m') : m' = m ∨
      p.start ≤ l.una ∧ l.una ≤ p.stop ∧ At o m' ⟨l.una,p.bytes.drop (l.una-p.start)⟩ := by
  have hspan := h.span hmss
  have hbase := h.base_le
  have huna := h.una_le
  obtain ⟨hlo,hhi,-⟩ := h.chain.mem hp
  have hstart : p.start ≤ p.stop := Nat.le_add_right _ _
  have hend : wrapsLte m.segEnd s.conn.sndUna = true ↔ p.stop ≤ l.una := by
    rw [hat.segEnd,h.una,wrapsLte_serial (by omega) (by omega)]
    omega
  have hseq : wrapsLt m.segSeq s.conn.sndUna = true ↔ p.start < l.una := by
    rw [hat.segSeq,h.una,wrapsLt_serial (by omega) (by omega)]
    omega
  rw [tcpTxRetransmitOne] at hone
  split at hone
  · cases hone
    exact .inl rfl
  · rename_i hcut
    simp only [Bool.or_eq_true,not_or,Bool.not_eq_true,Bool.not_eq_false'] at hcut
    obtain ⟨⟨hcut,-⟩,hcut'⟩ := hcut
    have hlt := hseq.mp hcut'
    have hgt : ¬p.stop ≤ l.una := fun hle => by simp [hend.mpr hle] at hcut
    obtain ⟨m₁,hpull,hone⟩ := bind_eq_ok hone
    cases hone
    rw [mbufPull] at hpull
    split at hpull
    · cases hpull
    · cases hpull
      have hn : (s.conn.sndUna-m.segSeq).toNat = l.una-p.start := by
        rw [h.una,hat.segSeq,serial_sub,serial_toNat (by omega) (by omega)]
        omega
      refine .inr ⟨by omega,by omega,?_,h.una,?_⟩
      · rw [hn,hat.data]
      · rw [Piece.stop_drop (by omega) (by omega)]
        exact hat.segEnd

theorem Laid.resend (h : Laid o s l) (hmss : s.conn.sndMss ≤ 65535)
    (hex : s.conn.txExclusive = true) {i : ℕ} {m' : Mbuf} {inPlace : Bool}
    (hbuf : s.conn.txq[i]? = some m)
    (hone : tcpTxRetransmitOne s.conn.sndUna inPlace m = .ok m') :
    ∃ l',Laid o { s with
      conn := { s.conn with txq := s.conn.txq.set i m' }
      writer := .resending (i+1) } l' ∧ l'.una = l.una := by
  obtain ⟨p,hp,hat⟩ := exists_right h.txq hbuf
  have hmem : p ∈ l.queued++l.kept := List.mem_append_left _ (List.mem_of_getElem? hp)
  rcases h.resent hmss hmem hat hone with rfl | ⟨hlo,hhi,hat'⟩
  · have hset : s.conn.txq.set i m' = s.conn.txq := by
      obtain ⟨hi,rfl⟩ := List.getElem?_eq_some_iff.mp hbuf
      exact List.set_getElem_self hi
    exact ⟨l,h.keep rfl rfl rfl hset rfl rfl trivial fun ht => ht,rfl⟩
  · have hi : i < l.queued.length := (List.getElem?_eq_some_iff.mp hp).1
    have hi' : (l.queued++l.kept)[i]? = some p := by rwa [List.getElem?_append_left hi]
    have hchain := h.chain.set hi' hlo hhi
    rw [List.set_append_left _ _ hi] at hchain
    refine ⟨⟨l.una,l.seen,l.base,l.queued.set i ⟨l.una,p.bytes.drop (l.una-p.start)⟩,l.kept⟩,
      ⟨h.una,h.nxt,forall₂_set h.txq hat' i,h.pending,hchain,?_,
      h.base_le,h.seen_le,h.una_le,h.near,h.full,trivial,fun ht => ?_⟩,rfl⟩
    · intro p' hp'
      rcases List.mem_append.mp hp' with hp' | hp'
      · rcases List.mem_or_eq_of_mem_set hp' with hp' | rfl
        · exact h.short p' (List.mem_append_left _ hp')
        · have hshort := h.short p hmem
          rw [List.length_drop]
          exact (Nat.sub_le _ _).trans hshort
      · exact h.short p' (List.mem_append_right _ hp')
    · simp [hex] at ht

/-! ### Runs -/

/-- In an open connection that has sent no FIN. -/
structure SendInv (o : ℤ) (s : Sys) : Prop where
  state : s.conn.state ≠ .synSent
  negotiated : Negotiated s.conn
  laid : ∃ l,Laid o s l

theorem synSent_of_advances {env : Env} (h : Advances env c c') (hc : c.state ≠ .synSent) :
    c'.state ≠ .synSent := by
  obtain ⟨st,st',hs,hs',hend⟩ := h
  have hst : st ≠ .synSent := by
    rcases hs with rfl | ⟨-,rfl⟩
    · exact hc
    · exact nofun
  have hst' : st' ≠ .synSent := by
    rcases hs' with rfl | ⟨-,rfl⟩
    · exact hst
    · cases st <;> simp_all [State.onAck]
  rcases hend with hend | hend
  · rwa [hend]
  · rw [hend]
    cases st' <;> simp_all [State.onFin]

theorem window_le (hscale : c.sndWscale ≤ 14) (p : Packet) :
    (p.window c).toNat ≤ maxSendWindow := by
  have hwide : (p.win.setWidth 32).toNat ≤ 65535 := by
    rw [BitVec.toNat_setWidth]
    omega
  rw [Packet.window,maxSendWindow,BitVec.toNat_shiftLeft,Nat.shiftLeft_eq]
  exact (Nat.mod_le _ _).trans
    (Nat.mul_le_mul hwide (Nat.pow_le_pow_right (by omega) hscale))

theorem Laid.ackPosition (h : Laid o s l) (hmss : s.conn.sndMss ≤ 65535) {ack nxt : BitVec 32}
    (horder : (ack-s.conn.sndUna).toNat ≤ (s.conn.sndNxt-s.conn.sndUna).toNat ∨
      (s.conn.sndUna-ack).toNat < 2^31 ∨ 0 < (ack-nxt).toNat ∧ (ack-nxt).toNat < 2^31)
    (hlo : wrapsLte s.conn.sndUna ack = true) (hhi : wrapsLte ack nxt = true) :
    ∃ u : ℕ,l.una ≤ u ∧ u ≤ s.stream.length ∧ ack = serial (o+u) := by
  have huna := h.una_le
  rcases horder with horder | horder | horder
  · rw [h.nxt_sub_una hmss] at horder
    refine ⟨l.una+(ack-s.conn.sndUna).toNat,by omega,by omega,?_⟩
    rw [Nat.cast_add,← Int.add_assoc,← serial_add,← h.una,serial_self,BitVec.add_comm,
      BitVec.sub_add_cancel]
  · -- an older number is refused, but for `snd_una` itself
    rw [wrapsLte,decide_eq_true_eq,BitVec.toInt_eq_toNat_of_lt (by omega)] at hlo
    refine ⟨l.una,le_rfl,huna,?_⟩
    rw [← h.una]
    bv_omega
  · rw [wrapsLte,decide_eq_true_eq,BitVec.toInt_eq_toNat_of_lt (by omega)] at hhi
    omega

theorem Sends.laid {env : Env} {ack win : BitVec 32} {net : Tcp.Sys} {loads : List (BitVec 32)}
    (h : Laid o s l) (hmss : s.conn.sndMss ≤ 65535)
    (horder : (ack-s.conn.sndUna).toNat ≤ (s.conn.sndNxt-s.conn.sndUna).toNat ∨
      (s.conn.sndUna-ack).toNat < 2^31 ∨ 0 < (ack-env.sndNxt).toNat ∧ (ack-env.sndNxt).toNat < 2^31)
    (hsends : Sends env ack win s.conn net.conn) :
    ∃ l',Laid o { s with toSys := net, loads := loads } l' ∧ l.una ≤ l'.una ∧
      l'.una ≤ s.stream.length := by
  have hex (ht : net.conn.txExclusive = false) : s.conn.txExclusive = false :=
    hsends.txExclusive.symm.trans ht
  cases hsends.takes with
  | left una txq =>
    exact ⟨l,h.keep una hsends.sndNxt hsends.sndMss txq hsends.txPending rfl h.room hex,le_rfl,
      h.una_le⟩
  | taken lower upper una txq =>
    obtain ⟨u,hlo,hhi,hack⟩ := h.ackPosition hmss horder lower upper
    have htxq : net.conn.txq = (ackedPrefix net.conn.sndUna s.conn.txq).2 ∨
        net.conn.txq = s.conn.txq ∧ net.conn.txExclusive = true := by
      cases hx : s.conn.txExclusive with
      | true => exact .inr ⟨by simpa [hx] using txq,hsends.txExclusive.trans hx⟩
      | false => exact .inl (by simpa [hx,una] using txq)
    obtain ⟨l',hl',hu⟩ := h.ack (t:={ s with toSys := net, loads := loads }) hmss hlo hhi
      (una.trans hack) hsends.sndNxt hsends.sndMss hsends.txPending rfl h.room htxq
    exact ⟨l',hl',by omega,by omega⟩

theorem Finished.laid (h : Laid o s l) (hmss : s.conn.sndMss ≤ 65535)
    (hopen : s.conn.state ≠ .closed) (hfinished : Finished s.conn t.conn) (hidle : t.writer = .idle)
    (hhanded : t.handed = s.handed) : ∃ l',Laid o t l' ∧ l'.una = l.una := by
  refine h.ack hmss le_rfl h.una_le (hfinished.sndUna.trans h.una) hfinished.sndNxt hfinished.sndMss
    (hfinished.txPending hopen) hhanded ?_ (.inl ?_)
  · rw [hidle]
    trivial
  · rw [hfinished.sndUna]
    exact hfinished.txq hopen

theorem Laid.call (h : Laid o s l) (hneg : Negotiated s.conn) (hfull : tcpIsSndFull s.conn = false)
    (hseen : l.seen = l.una) (vec wake : Bool) (iov : List (List UInt8)) :
    (Writer.next (s.call vec wake iov)).Room o s.stream.length (l.seen+maxSendWindow) := by
  obtain ⟨n,hwin,hedge,hn⟩ := h.winlen hneg hfull
  have hlen : (s.call vec wake iov).winlen = n := hwin
  refine ⟨?_,?_⟩
  · rw [hlen]
    exact hedge
  · rw [hlen,hseen]
    exact hn

theorem step_laid (hex : Exclusive s) (h : Laid o s l) (hneg : Negotiated s.conn)
    (hstate : s.conn.state ≠ .synSent) (horder : ackInOrder s ev) (ht : s.step ev = some t)
    (hopen : t.conn.state ≠ .closed) (hfins : t.fins = []) :
    ∃ l',Laid o t l' ∧ l.una ≤ l'.una ∧ l'.una ≤ s.stream.length := by
  have hopen' := open_before ht hopen
  have hsame {l' : Layout} (hl : Laid o t l') (hu : l'.una = l.una) :
      ∃ l',Laid o t l' ∧ l.una ≤ l'.una ∧ l'.una ≤ s.stream.length :=
    ⟨l',hl,hu.ge,hu.le.trans h.una_le⟩
  cases step_moves ht with
  | load | wait => exact hsame (h.keep rfl rfl rfl rfl rfl rfl h.room id) rfl
  | recv loaded received =>
    cases received with
    | goes goes =>
      simp only [ackInOrder,loaded,Bool.or_eq_true,Bool.and_eq_true,decide_eq_true_eq,or_assoc]
        at horder
      exact Sends.laid h hneg.mss horder goes.1
    | failed flag state => exact absurd state hopen
    | syn waits => exact absurd waits hstate
  | quiet net keeps sndWnd state =>
    exact hsame (h.keep keeps.sndUna keeps.sndNxt keeps.sndMss keeps.txq keeps.txPending rfl h.room
      fun hfree => keeps.txExclusive.symm.trans hfree) rfl
  | @write _ wake data ready opened =>
    obtain ⟨hfree,hfull⟩ := free_of_ready ready opened
    obtain ⟨l',hl',hu,hseen⟩ := h.enter hfree (hex hfree)
    have hroom := hl'.call hneg hfull (hseen.trans hu.symm) false wake [data]
    refine hsame (hl'.keep rfl rfl rfl rfl rfl rfl ⟨?_,hroom⟩ nofun) hu
    rw [List.length_take]
    exact (Nat.zero_add _).le.trans (min_le_left _ _)
  | @writev iov ready opened =>
    obtain ⟨hfree,hfull⟩ := free_of_ready ready opened
    obtain ⟨l',hl',hu,hseen⟩ := h.enter hfree (hex hfree)
    have hroom := hl'.call hneg hfull (hseen.trans hu.symm) true true iov
    exact hsame (hl'.keep rfl rfl rfl rfl rfl rfl hroom nofun) hu
  | next writer =>
    have hroom := h.room
    rw [writer] at hroom
    exact hsame (h.keep rfl rfl rfl rfl rfl rfl (Room.nextIov hroom) id) rfl
  | @round k rest pos push alloc writer =>
    have hbusy := hex.held (by simp [writer])
    have hroom := h.room
    rw [writer] at hroom
    have hround := round_copies s k rest pos push alloc
    generalize s.round k rest pos push alloc = t at hround hsame ⊢
    cases hround with
    | failed pending full => exact hsame (h.keep rfl rfl rfl rfl rfl rfl (Room.sent hroom) id) rfl
    | @copied c m n filled =>
      have hcopied := Room.copied hroom filled.fits
      have hfull : s.stream.length+n ≤ l.seen+maxSendWindow :=
        (Nat.le_add_right _ _).trans hcopied.2.2
      have hwriter : (if (rest.drop n).isEmpty then { k with done := k.done+n }.sent (pos+n)
          else .sending { k with done := k.done+n } (rest.drop n) (pos+n) push).Room o
            (s.stream.length+n) (l.seen+maxSendWindow) := by
        split
        · exact Room.sent hcopied
        · exact hcopied
      obtain ⟨l',hl',hu⟩ := h.copied filled hbusy hwriter hfull
      exact hsame hl' hu
  | finish writer finished =>
    obtain ⟨l',hl',hu⟩ := Finished.laid (t:={ s with conn := _, writer := .idle, written := _ }) h
      hneg.mss hopen' finished rfl rfl
    exact hsame hl' hu
  | finishResend writer finished =>
    obtain ⟨l',hl',hu⟩ := Finished.laid (t:={ s with conn := _, writer := .idle }) h hneg.mss hopen'
      finished rfl rfl
    exact hsame hl' hu
  | retransmit free => exact hsame (h.keep rfl rfl rfl rfl rfl rfl trivial nofun) rfl
  | resend writer buffer resent =>
    have hbusy := hex.held (by simp [writer])
    obtain ⟨l',hl',hu⟩ := h.resend hneg.mss hbusy buffer resent
    exact hsame hl' hu
  | shut free shut =>
    cases shut with
    | failed state => exact absurd state hopen
    | refused keeps sndWnd state =>
      exact hsame (h.keep keeps.sndUna keeps.sndNxt keeps.sndMss keeps.txq keeps.txPending rfl h.room
        fun hfree => keeps.txExclusive.symm.trans hfree) rfl
    | queued => simp at hfins
  | timeWaitOver => exact absurd rfl hopen
  | abort state => exact absurd state hopen

theorem Negotiated.keep (h : Negotiated c) (hmss : c'.sndMss = c.sndMss)
    (hscale : c'.sndWscale = c.sndWscale) (hwnd : c'.sndWnd = c.sndWnd) : Negotiated c' :=
  ⟨hmss ▸ h.mss,hscale ▸ h.wscale,hwnd ▸ h.wnd⟩

theorem round_negotiated (h : Negotiated s.conn) (k : Call) (rest : List UInt8) (pos : ℕ)
    (push alloc : Bool) : Negotiated (s.round k rest pos push alloc).conn := by
  have hround := round_copies s k rest pos push alloc
  generalize s.round k rest pos push alloc = t at hround ⊢
  cases hround with
  | failed => exact h
  | copied filled =>
    rw [txEmit,filled.conn]
    split <;> exact h.keep rfl rfl rfl

theorem step_negotiated (h : Negotiated s.conn) (hstate : s.conn.state ≠ .synSent)
    (ht : s.step ev = some t) (hopen : t.conn.state ≠ .closed) (hfins : t.fins = []) :
    Negotiated t.conn ∧ t.conn.state ≠ .synSent := by
  cases step_moves ht with
  | load | wait | next => exact ⟨h,hstate⟩
  | recv loaded received =>
    cases received with
    | goes goes =>
      obtain ⟨hsends,hadvances⟩ := goes
      refine ⟨⟨hsends.sndMss ▸ h.mss,hsends.sndWscale ▸ h.wscale,?_⟩,
        synSent_of_advances hadvances hstate⟩
      rcases hsends.sndWnd with hwnd | hwnd
      · rw [hwnd]
        exact h.wnd
      · rw [hwnd]
        exact window_le h.wscale _
    | failed flag state => exact absurd state hopen
    | syn waits => exact absurd waits hstate
  | quiet net keeps sndWnd state =>
    exact ⟨h.keep keeps.sndMss keeps.sndWscale sndWnd,fun hs => hstate (state.symm.trans hs)⟩
  | write | writev | retransmit | resend => exact ⟨h.keep rfl rfl rfl,hstate⟩
  | round writer =>
    exact ⟨round_negotiated h ..,fun hs => hstate ((round_keeps ..).2.symm.trans hs)⟩
  | finish writer finished | finishResend writer finished =>
    exact ⟨h.keep finished.sndMss finished.sndWscale finished.sndWnd,
      fun hs => hstate (finished.state.symm.trans hs)⟩
  | shut free shut =>
    cases shut with
    | failed state => exact absurd state hopen
    | refused keeps sndWnd state =>
      exact ⟨h.keep keeps.sndMss keeps.sndWscale sndWnd,fun hs => hstate (state.symm.trans hs)⟩
    | queued => simp at hfins
  | timeWaitOver => exact absurd rfl hopen
  | abort state => exact absurd state hopen

theorem fins_before (ht : s.step ev = some t) (hopen : t.conn.state ≠ .closed)
    (hfins : t.fins = []) : s.fins = [] := by
  cases step_moves ht with
  | round writer => exact (round_fins ..).symm.trans hfins
  | shut free shut =>
    cases shut with
    | failed state => exact absurd state hopen
    | refused => exact hfins
    | queued => simp at hfins
  | _ => exact hfins

theorem step_sendInv (hex : Exclusive s) (h : SendInv o s) (horder : ackInOrder s ev)
    (ht : s.step ev = some t) (hopen : t.conn.state ≠ .closed) (hfins : t.fins = []) :
    SendInv o t := by
  obtain ⟨l,hl⟩ := h.laid
  obtain ⟨l',hl',-⟩ := step_laid hex hl h.negotiated h.state horder ht hopen hfins
  obtain ⟨hneg,hstate⟩ := step_negotiated h.negotiated h.state ht hopen hfins
  exact ⟨hstate,hneg,l',hl'⟩

/-- A connection that has just been established. -/
structure Established (c : Conn) : Prop where
  state : c.state = .established
  una : c.sndUna = c.sndNxt
  txq : c.txq = []
  pending : c.txPending = none
  negotiated : Negotiated c

theorem sendInv_start (h : Established c) : SendInv c.sndNxt.toNat (.start c) where
  state := by
    change c.state ≠ .synSent
    rw [h.state]
    exact nofun
  negotiated := h.negotiated
  laid := by
    have hstream : (Sys.start c).stream = [] := by
      simp [Sys.stream,Sys.start,Tcp.Sys.start,pendingData,h.pending]
    have hnxt : c.sndNxt = serial (c.sndNxt.toNat+(0 : ℕ)) := by simp
    refine ⟨⟨0,0,0,[],[]⟩,h.una.trans hnxt,?_,?_,?_,?_,by simp,le_rfl,le_rfl,Nat.zero_le _,
      Nat.zero_le _,?_,trivial,by simp⟩
    · rw [hstream]
      exact hnxt
    · change List.Forall₂ _ c.txq []
      rw [h.txq]
      exact .nil
    · change List.Forall₂ _ c.txPending.toList []
      rw [h.pending]
      exact .nil
    · rw [hstream]
      rfl
    · rw [hstream]
      exact Nat.zero_le _

theorem run_sendInv {es : List Event} (hc : Established c)
    (horder : Machine.Along Sys.step (fun s ev => inOrder s ev) (.start c) es)
    (hrun : Machine.run Sys.step (.start c) es = some s) :
    Exclusive s ∧ Accepted s ∧
      (s.conn.state ≠ .closed → s.fins = [] → SendInv c.sndNxt.toNat s) := by
  refine Machine.run_invariant (P:=fun s => Exclusive s ∧ Accepted s ∧
    (s.conn.state ≠ .closed → s.fins = [] → SendInv c.sndNxt.toNat s)) (fun h hg hstep => ?_)
    ⟨fun _ => rfl,accepted_start hc.pending,fun _ _ => sendInv_start hc⟩ horder hrun
  obtain ⟨hex,haccepted,hinv⟩ := h
  simp only [inOrder,Bool.and_eq_true,Bool.not_eq_true'] at hg
  refine ⟨step_exclusive hex hstep,step_accepted hex haccepted hg.1 hstep,fun hopen hfins => ?_⟩
  exact step_sendInv hex (hinv (open_before hstep hopen) (fins_before hstep hopen hfins)) hg.2 hstep
    hopen hfins

/-- Every run in which the acknowledgments are in order and no gap is left keeps what is not
acknowledged, in all its states before a FIN. -/
theorem unacked_kept {es : List Event} (hc : Established c)
    (horder : Machine.Along Sys.step (fun s ev => inOrder s ev) (.start c) es)
    (hrun : Machine.run Sys.step (.start c) es = some s) (hopen : s.conn.state ≠ .closed)
    (hfins : s.fins = []) : Kept s := by
  obtain ⟨hex,haccepted,hinv⟩ := run_sendInv hc horder hrun
  obtain ⟨hstate,hneg,l,hl⟩ := hinv hopen hfins
  refine ⟨hl.ordered hneg.mss,fun ev t hev hstep hopen' hfins' => ?_,fun q => hl.covered hneg.mss,
    fun q hq m hm hcovers => ?_,fun m => hl.shortSegments,fun k => hl.window⟩
  · simp only [inOrder,Bool.and_eq_true] at hev
    obtain ⟨l',hl',hlo,hhi⟩ := step_laid hex hl hneg hstate hev.2 hstep hopen' hfins'
    have hspan := hl.span hneg.mss
    have hbase := hl.base_le
    rw [hl.una,hl'.una,wrapsLte_serial (by omega) (by omega)]
    omega
  · rw [← haccepted.stream hopen]
    exact hl.bytes hneg.mss hq hm hcovers

theorem established_opened (mss : ℕ) (h : mss ≤ 65535) :
    Established { Conn.opened 1000 with sndMss := mss } where
  state := rfl
  una := rfl
  txq := rfl
  pending := rfl
  negotiated := ⟨h,Nat.zero_le _,by change (1000 : BitVec 32).toNat ≤ maxSendWindow; decide⟩

/-- Three bytes in two segments, of which the first byte is acknowledged while the writer is busy. -/
theorem unacked_kept_three : ∃ s,Machine.run Sys.step (.start { Conn.opened 1000 with sndMss := 2 })
    [.write [1,2,3],.round true,.load,.recv 0 .sent (ackPacket 2),.round true,.finish] = some s ∧
      s.conn.sndUna = 2 ∧ (segments s.conn).map Mbuf.data = [[1,2],[3]] ∧ Kept s := by
  obtain ⟨horder,s,hs,hopen,hfins,huna,hdata⟩ : Machine.Along Sys.step (fun s ev => inOrder s ev)
      (.start { Conn.opened 1000 with sndMss := 2 })
        [.write [1,2,3],.round true,.load,.recv 0 .sent (ackPacket 2),.round true,.finish] ∧
      ∃ s ∈ Machine.run Sys.step (.start { Conn.opened 1000 with sndMss := 2 })
        [.write [1,2,3],.round true,.load,.recv 0 .sent (ackPacket 2),.round true,.finish],
        s.conn.state ≠ .closed ∧ s.fins = [] ∧ s.conn.sndUna = 2 ∧
          (segments s.conn).map Mbuf.data = [[1,2],[3]] := by
    decide +kernel
  exact ⟨s,hs,huna,hdata,unacked_kept (established_opened 2 (by decide)) horder hs hopen hfins⟩

/-- `tcp_writev` has no buffer for the third byte of its first part, goes on with the second part
and reports three bytes, the last of which was never copied.  And a packet that acknowledges the
number half a circle on moves `snd_una` there, while nothing was sent. -/
theorem unacked_lost :
    (∃ s,Machine.run Sys.step (.start { Conn.opened 1000 with sndMss := 2 })
      [.writev [[1,2,3],[4]],.next,.round true,.round false,.next,.round true,.next,.finish] =
        some s ∧ s.conn.state ≠ .closed ∧ s.fins = [] ∧ ¬Kept s) ∧
    ∃ s,Machine.run Sys.step (.start (.opened 1000))
      [.load,.recv 0 .sent (ackPacket 0x80000001)] =
        some s ∧ s.conn.state ≠ .closed ∧ s.fins = [] ∧ ¬Kept s := by
  constructor
  · obtain ⟨s,hs,hopen,hfins,hq,m,hm,hcovers,hne⟩ : ∃ s ∈ Machine.run Sys.step
        (.start { Conn.opened 1000 with sndMss := 2 })
        [.writev [[1,2,3],[4]],.next,.round true,.round false,.next,.round true,.next,.finish],
        s.conn.state ≠ .closed ∧ s.fins = [] ∧
          (3-s.conn.sndUna).toNat < (s.conn.sndNxt-s.conn.sndUna).toNat ∧
          ∃ m ∈ segments s.conn,Covers m 3 ∧ m.data[(3-m.segSeq).toNat]? ≠
            s.accepted[s.accepted.length-(s.conn.sndNxt-3).toNat]? := by
      decide +kernel
    exact ⟨s,hs,hopen,hfins,fun h => hne (h.bytes 3 hq m hm hcovers)⟩
  · obtain ⟨s,hs,hopen,hfins,hq,hnone⟩ : ∃ s ∈ Machine.run Sys.step (.start (.opened 1000))
        [.load,.recv 0 .sent (ackPacket 0x80000001)],s.conn.state ≠ .closed ∧ s.fins = [] ∧
          (0x80000001-s.conn.sndUna).toNat < (s.conn.sndNxt-s.conn.sndUna).toNat ∧
          segments s.conn = [] := by
      decide +kernel
    refine ⟨s,hs,hopen,hfins,fun h => ?_⟩
    obtain ⟨i,⟨m,hm,-⟩,-⟩ := h.covered 0x80000001 hq
    simp [hnone] at hm

end Vessel.TcpSend
