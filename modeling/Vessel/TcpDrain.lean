import Vessel.Machine
import Vessel.TcpAck

/-! The out-of-order queue over whole runs of the receive path.  The queue is kept in the order in
which its segments end, and the drain stops at the first one that begins after `rcv_nxt`. -/
namespace Vessel
namespace TcpDrain

open Tcp Serial List

/-- Text without a FIN, as the acceptability test of `tcp_rx_conn` hands it to `tcp_rx_text`. -/
def IsText (r : Ingress) (m : Mbuf) : Prop :=
  m.isFin = false ∧ 0 < m.data.length ∧ m.data.length < 65536 ∧
    m.segEnd = m.segSeq + BitVec.ofNat 32 m.data.length ∧
      isAcceptable r (BitVec.ofNat 32 m.data.length) m.segSeq = true

instance (r : Ingress) (m : Mbuf) : Decidable (IsText r m) := inferInstanceAs (Decidable (_ ∧ _))

/-- A read takes buffers from `rxq` and opens the window by their length. -/
inductive Event where
  | text (m : Mbuf)
  | read (left : List Mbuf) (wnd : BitVec 32)

def Opens (r : Ingress) (wnd : BitVec 32) : Prop := r.rcvWnd ≤ wnd ∧ (wnd.toNat : ℤ) ≤ maxWindow

instance (r : Ingress) (wnd : BitVec 32) : Decidable (Opens r wnd) :=
  inferInstanceAs (Decidable (_ ∧ _))

def step (r : Ingress) : Event → Option Ingress
  | .text m =>
    if IsText r m then
      match tcpRxText r m with
      | .ok none => some r
      | .ok (some t) => some t.rx
      | .error _ => none
    else none
  | .read left wnd => if Opens r wnd then some { r with rxq := left,rcvWnd := wnd } else none

/-- A connection that has not received any text. -/
structure Fresh (r : Ingress) : Prop where
  ooo : r.rxqOoo = []
  len : r.rxqOooLen = 0
  window : (r.rcvWnd.toNat : ℤ) ≤ maxWindow

/-- The segment holds the next octet to be received. -/
def Due (r : Ingress) (m : Mbuf) : Prop :=
  wrapsLte m.segSeq r.rcvNxt = true ∧ wrapsLt r.rcvNxt m.segEnd = true

/-- A segment ahead of `rcv_nxt` does not begin before a queued one that it ends after. -/
def NoneInside (r : Ingress) : Event → Prop
  | .text m => wrapsGt m.segSeq r.rcvNxt = true → ∀ q ∈ r.rxqOoo,
      wrapsGt m.segEnd q.segEnd = true → wrapsLte q.segSeq m.segSeq = true
  | .read _ _ => True

instance (r : Ingress) (m : Mbuf) : Decidable (Due r m) := inferInstanceAs (Decidable (_ ∧ _))

instance (r : Ingress) : (e : Event) → Decidable (NoneInside r e)
  | .text _ => inferInstanceAs (Decidable (_ → ∀ _ ∈ r.rxqOoo,_))
  | .read _ _ => instDecidableTrue

/-! ### The loops -/

section Loops

variable {r r' : Ingress} {t t' : Text} {m : Mbuf} {q q' : List Mbuf}

theorem tcpRxAppendText_queue (h : tcpRxAppendText r m = .ok r') :
    r'.rxqOoo = r.rxqOoo ∧ r'.rxqOooLen = r.rxqOooLen := by
  simp only [tcpRxAppendText] at h
  obtain ⟨_,-,h⟩ := bind_eq_ok h
  obtain ⟨_,-,h⟩ := bind_eq_ok h
  obtain ⟨_,-,h⟩ := bind_eq_ok h
  obtain ⟨_,-,h⟩ := bind_eq_ok h
  obtain ⟨_,-,h⟩ := bind_eq_ok h
  cases h
  exact ⟨rfl,rfl⟩

/-- What the drain leaves: a tail of the queue, whose first segment begins after `rcv_nxt`. -/
structure Drained (q : List Mbuf) (t : Text) : Prop where
  tail : t.rx.rxqOoo <:+ q
  len : t.rx.rxqOooLen = t.rx.rxqOoo.length
  stop : ∀ x ∈ t.rx.rxqOoo.head?,wrapsGt x.segSeq t.rx.rcvNxt = true

theorem Drained.cons (h : Drained q t) (m : Mbuf) : Drained (m::q) t :=
  ⟨h.tail.trans (suffix_cons m q),h.len,h.stop⟩

theorem drain_drained (hlen : t.rx.rxqOooLen = q.length) (h : drain q t = .ok t') :
    Drained q t' := by
  induction q generalizing t with
  | nil =>
    cases h
    exact ⟨suffix_refl _,hlen,by simp⟩
  | cons m q ih =>
    rw [length_cons] at hlen
    rw [drain] at h
    split at h
    · exact (ih (by simp [hlen]) h).cons m
    · split at h
      · cases h
        exact ⟨suffix_refl _,hlen,by simpa⟩
      · obtain ⟨rx,hrx,h⟩ := bind_eq_ok h
        have hkeep := (tcpRxAppendText_queue hrx).2
        exact (ih (hkeep.trans (by simp [hlen])) h).cons m

theorem drainQueue_drained (hlen : t.rx.rxqOooLen = t.rx.rxqOoo.length)
    (h : drainQueue t = .ok t') : Drained t.rx.rxqOoo t' := by
  obtain ⟨u,hu,h⟩ := bind_eq_ok h
  cases h
  have hd := drain_drained hlen hu
  exact ⟨hd.tail,hd.len,hd.stop⟩

/-- The search from the end stops after a segment that ends before `m`; those it has passed begin
after `m`. -/
theorem oooInsertRev_eq (h : oooInsertRev m q = some q') :
    ∃ l l', q = l++l' ∧ q' = l++m::l' ∧ (∀ x ∈ l,wrapsGte m.segSeq x.segSeq = false) ∧
      ∀ x ∈ l'.head?,wrapsGt m.segEnd x.segEnd = true := by
  induction q generalizing q' with
  | nil =>
    cases h
    exact ⟨[],[],rfl,rfl,by simp,by simp⟩
  | cons pos q ih =>
    rw [oooInsertRev] at h
    split_ifs at h with hend hstart
    · cases h
      exact ⟨[],pos::q,rfl,rfl,by simp,by simpa⟩
    · obtain ⟨q₁,hq₁,rfl⟩ := Option.map_eq_some_iff.mp h
      obtain ⟨l,l',rfl,rfl,hl,hl'⟩ := ih hq₁
      refine ⟨pos::l,l',rfl,rfl,?_,hl'⟩
      rw [forall_mem_cons]
      exact ⟨by simpa using hstart,hl⟩

theorem oooInsert_eq (h : oooInsert m q = some q') :
    ∃ l l', q = l++l' ∧ q' = l++m::l' ∧ (∀ x ∈ l',wrapsGte m.segSeq x.segSeq = false) ∧
      ∀ x ∈ l.getLast?,wrapsGt m.segEnd x.segEnd = true := by
  obtain ⟨q₁,hq₁,rfl⟩ := Option.map_eq_some_iff.mp h
  obtain ⟨l,l',hq,rfl,hl,hl'⟩ := oooInsertRev_eq hq₁
  refine ⟨l'.reverse,l.reverse,?_,by simp,by simpa using hl,by simpa using hl'⟩
  rw [← reverse_append,← hq,reverse_reverse]

theorem tcpRxText_drained (hlen : r.rxqOooLen = r.rxqOoo.length)
    (h : tcpRxText r m = .ok (some t)) :
    Drained r.rxqOoo t ∨
      ∃ q,oooInsert m r.rxqOoo = some q ∧ wrapsGt m.segSeq r.rcvNxt = true ∧ Drained q t := by
  rw [tcpRxText] at h
  split_ifs at h with hzero hle hfull
  · cases h
  · left
    obtain ⟨rx,hrx,h⟩ := bind_eq_ok h
    obtain ⟨u,hu,hut⟩ := map_eq_ok h
    obtain rfl := Option.some.inj hut
    obtain ⟨hqueue,hcount⟩ := tcpRxAppendText_queue hrx
    rw [← hqueue]
    exact drainQueue_drained (by simp only [hcount,hqueue,hlen]) hu
  · cases h
  · right
    cases hq : oooInsert m r.rxqOoo with
    | none =>
      rw [hq] at h
      cases h
    | some q =>
      rw [hq] at h
      obtain ⟨u,hu,hut⟩ := map_eq_ok h
      obtain rfl := Option.some.inj hut
      obtain ⟨l,l',hsplit,rfl,-⟩ := oooInsert_eq hq
      refine ⟨_,rfl,?_,drainQueue_drained ?_ hu⟩
      · rw [← Bool.not_eq_false]
        exact fun hgt => hle (wrapsLte_of_not_wrapsGt hgt)
      · simp only [hlen,hsplit,length_append,length_cons]
        omega

end Loops

/-! ### Runs -/

/-- Nothing is said about the bytes. -/
def anything : Content := fun _ _ _ => True

theorem clippable_anything : Clippable anything := ⟨fun _ _ => trivial,fun _ _ => trivial⟩

/-- The queue is also in the order in which its segments begin. -/
def Starts (q : List Mbuf) : Prop := q.Pairwise fun x y => wrapsLte x.segSeq y.segSeq = true

/-- What every call leaves behind. -/
structure Kept (r : Ingress) (n e : ℤ) (qs : List Item) : Prop where
  ingress : IngressInv anything r n e qs
  len : r.rxqOooLen = r.rxqOoo.length
  stop : ∀ x ∈ r.rxqOoo.head?,wrapsGt x.segSeq r.rcvNxt = true

/-- The state stands at some place. -/
def Holds (r : Ingress) : Prop := ∃ n e qs,Kept r n e qs

section Runs

variable {r r' : Ingress} {n e : ℤ} {qs : List Item} {m : Mbuf} {ev : Event}

theorem IsText.placed (h : IsText r m) {a : ℤ} (ha : m.segSeq = serial a) : Placed a m := by
  obtain ⟨hfin,-,-,hlast,-⟩ := h
  refine ⟨ha,?_⟩
  rw [hlast,ha,← serial_natCast,serial_add,Mbuf.span,hfin]
  simp

theorem IsText.position (hr : r.At n e) (h : IsText r m) :
    ∃ a,Placed a m ∧ a < e ∧ n < a+m.span ∧ m.span ≤ maxSpan := by
  obtain ⟨hfin,hpos,hsmall,hlast,hacc⟩ := h
  have hnat : (BitVec.ofNat 32 m.data.length).toNat = m.data.length := by
    rw [BitVec.toNat_ofNat,Nat.mod_eq_of_lt (by omega)]
  have hspan : m.span = m.data.length := by simp [Mbuf.span,hfin]
  obtain ⟨a,ha,hbelow,hbeyond⟩ := isAcceptable_position hr (by omega)
    (by rw [hnat,maxSpan]; omega) hacc
  refine ⟨a,IsText.placed ⟨hfin,hpos,hsmall,hlast,hacc⟩ ha,hbelow,?_,?_⟩
  · rw [hspan,← hnat]
    exact hbeyond
  · rw [hspan,maxSpan]
    omega

theorem wrapsLte_queued {x y : Item} (hwin : e-n ≤ maxWindow) (hx : Queued anything n e x)
    (hy : Queued anything n e y) : wrapsLte x.2.segSeq y.2.segSeq = true ↔ x.1 ≤ y.1 := by
  have hx₁ := hx.below
  have hx₂ := hx.beyond
  have hx₃ := hx.small
  have hy₁ := hy.below
  have hy₂ := hy.beyond
  have hy₃ := hy.small
  unfold maxWindow at hwin
  unfold maxSpan at hx₃ hy₃
  unfold Item.last at hx₂ hy₂
  rw [hx.placed.seq,hy.placed.seq]
  exact wrapsLte_serial (by omega) (by omega)

/-- If the queue is in the order of its starts and the first segment is not due, none is. -/
theorem Kept.not_due (h : Kept r n e qs) (hstarts : Starts r.rxqOoo) :
    ∀ x ∈ r.rxqOoo,¬Due r x := by
  have hat := h.ingress.at'
  have hahead : ∀ x ∈ qs,n < x.1 := by
    have hstop := h.stop
    rw [Starts,h.ingress.queue,pairwise_map] at hstarts
    rw [h.ingress.queue] at hstop
    cases qs with
    | nil => simp
    | cons x qs =>
      have hx := h.ingress.queued x mem_cons_self
      have hlt : n < x.1 :=
        (queued_compare hat (Int.le_refl n) hat.bounded hx).2.mp (hstop x.2 (by simp))
      rw [forall_mem_cons]
      refine ⟨hlt,fun y hy => ?_⟩
      have hle := (pairwise_cons.mp hstarts).1 y hy
      rw [wrapsLte_queued hat.bounded hx
        (h.ingress.queued y (mem_cons_of_mem x hy))] at hle
      omega
  rw [h.ingress.queue,forall_mem_map]
  rintro x hx ⟨hle,-⟩
  have hq := h.ingress.queued x hx
  have hbelow := hq.below
  have hwin := hat.bounded
  have hlt := hahead x hx
  unfold maxWindow at hwin
  rw [hq.placed.seq,hat.nxt,wrapsLte_serial (by omega) (by omega)] at hle
  omega

/-- A segment that does not begin before those it ends after takes its place in both orders. -/
theorem Kept.starts_insert {q : List Mbuf} (h : Kept r n e qs) (hm : IsText r m)
    (hstarts : Starts r.rxqOoo) (hnone : ∀ x ∈ r.rxqOoo,wrapsGt m.segEnd x.segEnd = true →
      wrapsLte x.segSeq m.segSeq = true) (hq : oooInsert m r.rxqOoo = some q) : Starts q := by
  have hwin := h.ingress.at'.bounded
  obtain ⟨a,hplaced,hbelow,hbeyond,hsmall⟩ := hm.position h.ingress.at'
  obtain ⟨l,l',hsplit,rfl,hafter,hlast⟩ := oooInsert_eq hq
  rw [hsplit,Starts,pairwise_append] at hstarts
  obtain ⟨hl,hl',hcross⟩ := hstarts
  have hle : ∀ x ∈ l,wrapsLte x.segSeq m.segSeq = true := by
    intro x hx
    refine hnone x (hsplit ▸ mem_append_left l' hx) ?_
    obtain ⟨ls,ls',hqs,rfl,-⟩ := map_eq_append_iff.mp (h.ingress.queue.symm.trans hsplit)
    have hend : ∀ y ∈ ls,(wrapsGt m.segEnd y.2.segEnd = true ↔ Item.last y < a+m.span) := by
      intro y hy
      have hy := h.ingress.queued y (hqs ▸ mem_append_left ls' hy)
      have hy₁ := hy.below
      have hy₂ := hy.beyond
      have hy₃ := hy.small
      have hspan := m.span_nonneg
      unfold maxWindow at hwin
      unfold maxSpan at hsmall hy₃
      unfold Item.last at hy₂ ⊢
      rw [hplaced.last,hy.placed.last]
      exact wrapsGt_serial (by omega) (by omega)
    obtain ⟨y,hy,rfl⟩ := mem_map.mp hx
    rw [hend y hy]
    -- the last one of `ls` is the one that the search found
    have hsorted := h.ingress.sorted
    rw [hqs] at hsorted
    rcases eq_nil_or_concat ls with rfl | ⟨init,z,rfl⟩
    · simp at hy
    · rw [concat_eq_append] at hy hsorted
      have hz := (hend z (by simp)).mp (hlast z.2 (by simp))
      have hinit := (pairwise_append.mp (pairwise_append.mp hsorted).1).2.2
      rcases mem_append.mp hy with hy | hy
      · have := hinit y hy z (by simp)
        omega
      · rw [mem_singleton.mp hy]
        exact hz
  rw [Starts,pairwise_append,pairwise_cons]
  refine ⟨hl,⟨fun x hx => ?_,hl'⟩,fun x hx y hy => ?_⟩
  · apply wrapsLte_of_not_wrapsGt
    have := hafter x hx
    simp only [wrapsGte,wrapsGt,decide_eq_false_iff_not] at this ⊢
    omega
  · rcases mem_cons.mp hy with rfl | hy
    · exact hle x hx
    · exact hcross x hx y hy

theorem Kept.text (h : Kept r n e qs) (hm : IsText r m) :
    tcpRxText r m = .ok none ∨ ∃ t n' qs',tcpRxText r m = .ok (some t) ∧ Kept t.rx n' e qs' ∧
      (Starts r.rxqOoo → NoneInside r (.text m) → Starts t.rx.rxqOoo) := by
  obtain ⟨a,hplaced,hbelow,hbeyond,hsmall⟩ := hm.position h.ingress.at'
  have hfin : m.isFin = false := hm.1
  rcases tcpRxText_spec (x:=(a,m)) clippable_anything h.ingress hplaced hbelow hbeyond hsmall trivial
    (by simp [hfin]) with hleft | ⟨t,n',new,qs',ht,hstep⟩
  · exact .inl hleft
  · refine .inr ⟨t,n',qs',ht,?_⟩
    rcases tcpRxText_drained h.len ht with hd | ⟨q,hq,hgt,hd⟩
    · exact ⟨⟨hstep.inv,hd.len,hd.stop⟩,fun hs _ => hs.sublist hd.tail.sublist⟩
    · exact ⟨⟨hstep.inv,hd.len,hd.stop⟩,fun hs hno =>
        (h.starts_insert hm hs (hno hgt) hq).sublist hd.tail.sublist⟩

theorem Kept.read (h : Kept r n e qs) {wnd : BitVec 32} (hopen : Opens r wnd) (left : List Mbuf) :
    Kept { r with rxq := left,rcvWnd := wnd } n (n+wnd.toNat) qs := by
  obtain ⟨⟨hat,hqueue,hsorted,hqueued⟩,hlen,hstop⟩ := h
  have hle := hat.le
  have hbound := hat.bounded
  unfold maxWindow at hbound
  have hwnd : e ≤ n+wnd.toNat := by
    have := BitVec.le_def.mp hopen.1
    rw [hat.wnd,serial_toNat (by omega) (by omega)] at this
    omega
  refine ⟨⟨⟨hat.nxt,?_,by omega,?_⟩,hqueue,hsorted,fun x hx => ?_⟩,hlen,hstop⟩
  · rw [add_sub_cancel_left,serial_self]
  · have := hopen.2
    omega
  · obtain ⟨hplaced,hbelow,hbeyond,hsmall,hcontent,hfin⟩ := hqueued x hx
    exact ⟨hplaced,by omega,hbeyond,hsmall,hcontent,fun hf => (hfin hf).trans hwnd⟩

theorem Holds.step (h : Holds r) (hstep : step r ev = some r') :
    Holds r' ∧ (Starts r.rxqOoo → NoneInside r ev → Starts r'.rxqOoo) := by
  obtain ⟨n,e,qs,hk⟩ := h
  cases ev with
  | text m =>
    rw [TcpDrain.step] at hstep
    split_ifs at hstep with hm
    rcases hk.text hm with hleft | ⟨t,n',qs',ht,hk',hs⟩
    · rw [hleft] at hstep
      cases hstep
      exact ⟨⟨n,e,qs,hk⟩,fun hs _ => hs⟩
    · rw [ht] at hstep
      cases hstep
      exact ⟨⟨n',e,qs',hk'⟩,hs⟩
  | read left wnd =>
    rw [TcpDrain.step] at hstep
    split_ifs at hstep with hopen
    cases hstep
    exact ⟨⟨n,_,qs,hk.read hopen left⟩,fun hs _ => hs⟩

theorem Fresh.holds (h : Fresh r) : Holds r := by
  refine ⟨r.rcvNxt.toNat,r.rcvNxt.toNat+r.rcvWnd.toNat,[],⟨⟨?_,?_,by omega,?_⟩,h.ooo,
    List.Pairwise.nil,by simp⟩,?_,?_⟩
  · rw [serial_self]
  · rw [add_sub_cancel_left,serial_self]
  · have := h.window
    omega
  · rw [h.len,h.ooo]
    rfl
  · simp [h.ooo]

/-- The length is always right, and the queue has nothing due as long as no segment begins before a
queued one that it ends after. -/
theorem queue_drained {es : List Event} (hr : Fresh r) (h : Machine.run step r es = some r') :
    r'.rxqOooLen = r'.rxqOoo.length ∧
      (Machine.Along step NoneInside r es → ∀ m ∈ r'.rxqOoo,¬Due r' m) := by
  obtain ⟨n,e,qs,hk⟩ : Holds r' :=
    Machine.run_keeps (fun hs hstep => (Holds.step hs hstep).1) hr.holds h
  refine ⟨hk.len,fun hok => ?_⟩
  have hstarts : Holds r' ∧ Starts r'.rxqOoo := by
    refine Machine.run_invariant (P:=fun r => Holds r ∧ Starts r.rxqOoo) ?_ ⟨hr.holds,?_⟩ hok h
    · intro s t ev hs hok hstep
      obtain ⟨ht,hst⟩ := hs.1.step hstep
      exact ⟨ht,hst hs.2 hok⟩
    · rw [hr.ooo]
      exact List.Pairwise.nil
  exact hk.not_due hstarts.2

end Runs

/-- A connection that waits for the octet 1 with a window of 100. -/
def waiting : Ingress := ⟨1,100,[],[],0⟩

def segment (seq len : ℕ) : Mbuf :=
  ⟨List.replicate len 0,BitVec.ofNat 32 seq,BitVec.ofNat 32 (seq+len),0⟩

theorem queue_drained_in_turn :
    ∃ r ∈ Machine.run step waiting [.text (segment 8 2),.text (segment 10 5),.text (segment 1 7)],
      r.rxqOooLen = r.rxqOoo.length ∧ ∀ m ∈ r.rxqOoo,¬Due r m := by
  obtain ⟨r,hr,-⟩ : ∃ r ∈ Machine.run step waiting
      [.text (segment 8 2),.text (segment 10 5),.text (segment 1 7)],True := by decide +kernel
  have h := queue_drained ⟨rfl,rfl,by decide⟩ hr
  exact ⟨r,hr,h.1,h.2 (by decide +kernel)⟩

/-- A segment of 15 octets encloses a queued one of 2; the octets before it bring `rcv_nxt` into the
larger one only. -/
theorem queue_not_drained :
    ∃ r ∈ Machine.run step waiting [.text (segment 8 2),.text (segment 5 15),.text (segment 1 5)],
      r.rcvNxt = 6 ∧ ∃ m ∈ r.rxqOoo,m.segSeq = 5 ∧ m.segEnd = 20 ∧ Due r m := by
  decide +kernel

end TcpDrain
end Vessel
