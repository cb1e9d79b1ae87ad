import Vessel.TcpConn

/-! What the receive path does to text, in unbounded positions.
A buffer placed at position `a` takes `span` numbers from there, one for each byte and one
for a FIN.  Positions are related to the words of the source by `serial`; all positions in
play stay within half the circle of `rcv_nxt`. -/
namespace Vessel.Tcp

open Serial List

@[simp] theorem ok_bind {α β : Type} (a : α) (f : α → Except Abort β) :
    ((Except.ok a : Except Abort α) >>= f) = f a := rfl
@[simp] theorem ok_pure {α : Type} (a : α) : (pure a : Except Abort α) = .ok a := rfl
@[simp] theorem ok_map {α β : Type} (a : α) (f : α → β) :
    (f <$> (Except.ok a : Except Abort α)) = .ok (f a) := rfl

theorem mbufPull_ok {m : Mbuf} {len : ℕ} (h : len ≤ m.data.length) :
    mbufPull m len = .ok { m with data := m.data.drop len } := if_neg (by omega)

theorem mbufTrim_ok {m : Mbuf} {len : ℕ} (h : len ≤ m.data.length) :
    mbufTrim m len = .ok { m with data := m.data.take (m.data.length - len) } := if_neg (by omega)

theorem assertThat_true {b : Bool} (h : b = true) : assertThat b = .ok () := if_pos h

def Mbuf.isFin (m : Mbuf) : Bool := has m.flags tcpFin

/-- The sequence numbers that a buffer takes. -/
def Mbuf.span (m : Mbuf) : ℤ := m.data.length + if m.isFin then 1 else 0

theorem Mbuf.span_nonneg (m : Mbuf) : 0 ≤ m.span := by
  unfold Mbuf.span
  split <;> omega

theorem Mbuf.length_le_span (m : Mbuf) : (m.data.length : ℤ) ≤ m.span := by
  unfold Mbuf.span
  split <;> omega

theorem Mbuf.span_le_length (m : Mbuf) : m.span ≤ m.data.length + 1 := by
  unfold Mbuf.span
  split <;> omega

/-- The buffer stands at position `a`. -/
structure Placed (a : ℤ) (m : Mbuf) : Prop where
  seq : m.segSeq = serial a
  last : m.segEnd = serial (a + m.span)

/-- The most numbers that one segment takes, and a bound for windows that keeps every
comparison within half the circle. -/
def maxSpan : ℤ := 65536

def maxWindow : ℤ := 2^31 - 2*65536

/-- The state stands at `n`, and the window ends at `e`. -/
structure Ingress.At (r : Ingress) (n e : ℤ) : Prop where
  nxt : r.rcvNxt = serial n
  wnd : r.rcvWnd = serial (e-n)
  le : n ≤ e
  bounded : e - n ≤ maxWindow

section Append

variable {r : Ingress} {m : Mbuf} {n e a : ℤ}

theorem Ingress.At.edge (h : r.At n e) : r.rcvNxt + r.rcvWnd = serial e := by
  rw [h.nxt,h.wnd,serial_add]
  congr 1
  omega

theorem clipHead_ok (h : r.At n e) (hm : Placed a m) (hle : a ≤ n) (hin : n - a ≤ m.data.length)
    (hspan : m.span ≤ maxSpan) :
    clipHead r m = .ok ⟨m.data.drop (n-a).toNat,serial n,m.segEnd,m.flags⟩ := by
  have hlen := m.length_le_span
  have hd : r.rcvNxt - m.segSeq = serial (n-a) := by rw [h.nxt,hm.seq,serial_sub]
  unfold maxSpan at hspan
  have hlt : wrapsLt m.segSeq r.rcvNxt = true ↔ a < n := by
    rw [h.nxt,hm.seq]
    exact wrapsLt_serial (by omega) (by omega)
  by_cases han : a < n
  · have hnat : (serial (n-a)).toNat = (n-a).toNat := serial_toNat (by omega) (by omega)
    have hpull : (n-a).toNat ≤ m.data.length := by omega
    simp only [clipHead,hlt.mpr han,if_true,hd,hnat,mbufPull_ok hpull,ok_bind,ok_pure]
    rw [hm.seq,serial_add,show a+(n-a) = n by omega]
  · have heq : a = n := by omega
    have hge : ¬wrapsLt m.segSeq r.rcvNxt = true := fun hw => han (hlt.mp hw)
    simp only [clipHead,hge,ok_pure]
    rw [heq,Int.sub_self,Int.toNat_zero,drop_zero,← heq,← hm.seq]
    rfl

/-- A buffer that begins at `rcv_nxt` is cut at the end of the window.  A FIN is cut off
before any byte, but stays in `flags`. -/
theorem clipTail_ok (h : r.At n e) (hm : Placed n m) (hspan : m.span ≤ maxSpan)
    (hroom : m.isFin = true → n < e) :
    clipTail r m = .ok ⟨m.data.take (min (n+m.span) e - n - if m.isFin then 1 else 0).toNat,
      serial n,serial (min (n+m.span) e),m.flags⟩ := by
  have hlen := m.length_le_span
  have hle := h.le
  have hb := h.bounded
  have hpos := m.span_nonneg
  have hdef : m.span = m.data.length + if m.isFin then 1 else 0 := rfl
  unfold maxSpan at hspan
  unfold maxWindow at hb
  have hlt : wrapsLt (r.rcvNxt + r.rcvWnd) m.segEnd = true ↔ e < n+m.span := by
    rw [h.edge,hm.last]
    exact wrapsLt_serial (by omega) (by omega)
  have hd : m.segEnd - (r.rcvNxt + r.rcvWnd) = serial (n+m.span-e) := by
    rw [h.edge,hm.last,serial_sub]
  by_cases hcut : e < n+m.span
  · have hnat : (serial (n+m.span-e)).toNat = (n+m.span-e).toNat :=
      serial_toNat (by omega) (by omega)
    have htrim : (n+m.span-e).toNat ≤ m.data.length := by
      split at hdef
      · have := hroom ‹_›
        omega
      · omega
    have hkeep : m.data.length - (n+m.span-e).toNat = (e - n - if m.isFin then 1 else 0).toNat := by
      omega
    simp only [clipTail,hlt.mpr hcut,if_true,hd,hnat,mbufTrim_ok htrim,ok_bind,ok_pure]
    rw [hkeep,hm.seq,h.edge,show min (n+m.span) e = e by omega]
  · have hge : ¬wrapsLt (r.rcvNxt + r.rcvWnd) m.segEnd = true := fun hw => hcut (hlt.mp hw)
    have hall : m.data.length ≤ (min (n+m.span) e - n - if m.isFin then 1 else 0).toNat := by
      omega
    simp only [clipTail,hge,ok_pure]
    rw [take_of_length_le hall,← hm.seq,show min (n+m.span) e = n+m.span by omega,← hm.last]
    rfl

/-- What is left of a buffer at `a` when it is appended at `n` in a window up to `e`. -/
def clipped (m : Mbuf) (a n e : ℤ) : Mbuf where
  data := (m.data.drop (n-a).toNat).take (min (a+m.span) e - n - if m.isFin then 1 else 0).toNat
  segSeq := serial n
  segEnd := serial (min (a+m.span) e)
  flags := m.flags

@[simp] theorem clipped_isFin (m : Mbuf) (a n e : ℤ) : (clipped m a n e).isFin = m.isFin := rfl

theorem clipped_span (hle : a ≤ n) (hlt : n < a+m.span) (hne : n ≤ e)
    (hroom : m.isFin = true → n < e) : n + (clipped m a n e).span = min (a+m.span) e := by
  have hdef : m.span = m.data.length + if m.isFin then 1 else 0 := rfl
  have hdef' : (clipped m a n e).span =
      (clipped m a n e).data.length + if m.isFin then 1 else 0 := rfl
  rw [hdef',clipped,length_take,length_drop]
  cases hf : m.isFin with
  | false =>
    simp only [hf,Bool.false_eq_true,if_false] at hdef ⊢
    omega
  | true =>
    have := hroom hf
    simp only [hf,if_true] at hdef ⊢
    omega

/-- A segment that covers `rcv_nxt` is appended; only a FIN that meets a closed window is
cut off by more than there is. -/
theorem tcpRxAppendText_ok (h : r.At n e) (hm : Placed a m) (hle : a ≤ n) (hlt : n < a+m.span)
    (hspan : m.span ≤ maxSpan) (hroom : m.isFin = true → n < e) :
    tcpRxAppendText r m = .ok ⟨serial (min (a+m.span) e),serial (e - min (a+m.span) e),
      r.rxq ++ [clipped m a n e],r.rxqOoo,r.rxqOooLen⟩ := by
  have hend := clipped_span hle hlt h.le hroom
  have hlen := m.span_le_length
  have hne := h.le
  have hb := h.bounded
  have hs := hspan
  unfold maxSpan at hs
  unfold maxWindow at hb
  have hassert₁ : wrapsLte m.segSeq r.rcvNxt = true := by
    rw [hm.seq,h.nxt]
    exact (wrapsLte_serial (by omega) (by omega)).mpr hle
  have hassert₂ : wrapsGt m.segEnd r.rcvNxt = true := by
    rw [hm.last,h.nxt]
    exact (wrapsGt_serial (by omega) (by omega)).mpr hlt
  have hhead := clipHead_ok h hm hle (by omega) hspan
  -- the buffer after the first cut stands at `n`
  let m' : Mbuf := ⟨m.data.drop (n-a).toNat,serial n,m.segEnd,m.flags⟩
  have hspan' : m'.span = a+m.span-n := by
    change ((m.data.drop (n-a).toNat).length : ℤ) + (if m.isFin then 1 else 0) = _
    rw [length_drop,Mbuf.span]
    omega
  have hm' : Placed n m' := ⟨rfl,by rw [hspan',show n+(a+m.span-n) = a+m.span by omega]; exact hm.last⟩
  have htail := clipTail_ok h hm' (by rw [hspan',maxSpan]; omega) hroom
  rw [hspan',show n+(a+m.span-n) = a+m.span by omega] at htail
  have hsub : serial (min (a+m.span) e) - serial n = serial (min (a+m.span) e - n) := serial_sub ..
  have hassert₃ : decide (serial (min (a+m.span) e - n) ≤ r.rcvWnd) = true := by
    rw [decide_eq_true_eq,h.wnd,BitVec.le_def,serial_toNat (by omega) (by omega),
      serial_toNat (by omega) (by omega)]
    omega
  simp only [tcpRxAppendText,assertThat_true hassert₁,assertThat_true hassert₂,ok_bind,hhead]
  rw [htail]
  simp only [ok_bind,hsub,assertThat_true hassert₃,ok_pure]
  rw [h.wnd,serial_sub,show e-n-(min (a+m.span) e - n) = e - min (a+m.span) e by omega]
  rfl

end Append

/-! ### Contents -/

/-- A property of what stands at a position: its bytes, and whether a FIN follows. -/
abbrev Content := ℤ → List UInt8 → Bool → Prop

/-- The property survives cuts, except that a FIN is not cut off. -/
structure Clippable (Q : Content) : Prop where
  drop : ∀ {a d f k}, Q a d f → k ≤ d.length → Q (a+k) (d.drop k) f
  take : ∀ {a d} k, Q a d false → Q a (d.take k) false

/-- The property also survives a cut that takes the FIN away from its place. -/
def FinClips (Q : Content) : Prop := ∀ {a d} k, Q a d true → Q a (d.take k) true

/-- Buffers that fill the positions from `n` to `n'`. -/
def Contiguous (Q : Content) : ℤ → List Mbuf → ℤ → Prop
  | n, [], n' => n = n'
  | n, m::ms, n' => (Placed n m ∧ Q n m.data m.isFin) ∧ Contiguous Q (n+m.span) ms n'

section Contents

variable {Q : Content} {m : Mbuf} {a n e n' : ℤ}

theorem clipped_content (hQ : Clippable Q) (hq : Q a m.data m.isFin) (hle : a ≤ n)
    (hlt : n < a+m.span) (hfin : m.isFin = true → a+m.span ≤ e ∨ FinClips Q) :
    Q n (clipped m a n e).data m.isFin := by
  have hdef : m.span = m.data.length + if m.isFin then 1 else 0 := rfl
  have hcut : (n-a).toNat ≤ m.data.length := by
    have := m.span_le_length
    omega
  have hdrop := hQ.drop hq hcut
  rw [show a+((n-a).toNat : ℤ) = n by omega] at hdrop
  cases hf : m.isFin with
  | false =>
    rw [hf] at hdrop
    exact hQ.take _ hdrop
  | true =>
    rw [hf] at hdrop
    rcases hfin hf with hin | hclips
    · have hall : (m.data.drop (n-a).toNat).length ≤
          (min (a+m.span) e - n - if m.isFin then 1 else 0).toNat := by
        rw [length_drop]
        simp only [hf,if_true] at hdef ⊢
        omega
      rw [clipped,take_of_length_le hall]
      exact hdrop
    · exact hclips _ hdrop

theorem clipped_placed (hle : a ≤ n) (hlt : n < a+m.span) (hne : n ≤ e)
    (hroom : m.isFin = true → n < e) : Placed n (clipped m a n e) :=
  ⟨rfl,by rw [clipped_span hle hlt hne hroom]; rfl⟩

end Contents

/-! ### The out-of-order queue -/

/-- A queued buffer with its position. -/
abbrev Item := ℤ × Mbuf

def Item.last (x : Item) : ℤ := x.1 + x.2.span

/-- A buffer that waits for text before it, in a window from `n` to `e`. -/
structure Queued (Q : Content) (n e : ℤ) (x : Item) : Prop where
  placed : Placed x.1 x.2
  below : x.1 < e
  beyond : n < Item.last x
  small : x.2.span ≤ maxSpan
  content : Q x.1 x.2.data x.2.isFin
  fin : x.2.isFin = true → Item.last x ≤ e

abbrev SortedItems (qs : List Item) : Prop := qs.Pairwise fun x y => Item.last x ≤ Item.last y

/-- A section with the state of the drain, at `n` in a window that ends at `e`. -/
structure Text.Ends (t t' : Text) (Q : Content) (n e n' : ℤ) (new : List Mbuf) (qs : List Item) :
    Prop where
  at' : t'.rx.At n' e
  le : n ≤ n'
  rxq : t'.rx.rxq = t.rx.rxq ++ new
  filled : Contiguous Q n new n'
  queue : t'.rx.rxqOoo = qs.map Prod.snd
  rest : ∀ x ∈ qs, n' < Item.last x
  wake : t'.wake = (t.wake || !new.isEmpty)
  fin : t'.fin = (t.fin || new.any Mbuf.isFin)

section Drain

variable {Q : Content} {n₀ n e : ℤ}

theorem Ingress.At.congr {r r' : Ingress} (h : r.At n e) (hn : r'.rcvNxt = r.rcvNxt)
    (hw : r'.rcvWnd = r.rcvWnd) : r'.At n e :=
  ⟨hn.trans h.nxt,hw.trans h.wnd,h.le,h.bounded⟩

theorem Text.Ends.cons {t t₁ t' : Text} {m : Mbuf} {n' : ℤ} {new : List Mbuf} {qs : List Item}
    (h : t₁.Ends t' Q (n+m.span) e n' new qs) (hrxq : t₁.rx.rxq = t.rx.rxq ++ [m])
    (hwake : t₁.wake = true) (hfin : t₁.fin = (t.fin || m.isFin)) (hm : Placed n m)
    (hq : Q n m.data m.isFin) : t.Ends t' Q n e n' (m::new) qs where
  at' := h.at'
  le := by
    have := h.le
    have := m.span_nonneg
    omega
  rxq := by rw [h.rxq,hrxq,append_assoc,singleton_append]
  filled := ⟨⟨hm,hq⟩,h.filled⟩
  queue := h.queue
  rest := h.rest
  wake := by rw [h.wake,hwake,isEmpty_cons,Bool.true_or,Bool.not_false,Bool.or_true]
  fin := by rw [h.fin,hfin,any_cons,Bool.or_assoc]

theorem queued_compare {r : Ingress} {x : Item} (h : r.At n e) (hn : n₀ ≤ n)
    (hwin : e - n₀ ≤ maxWindow) (hx : Queued Q n₀ e x) :
    (wrapsLte x.2.segEnd r.rcvNxt = true ↔ Item.last x ≤ n) ∧
      (wrapsGt x.2.segSeq r.rcvNxt = true ↔ n < x.1) := by
  have hne := h.le
  have hbelow := hx.below
  have hbeyond := hx.beyond
  have hsmall := hx.small
  have hspan := x.2.span_nonneg
  unfold maxSpan at hsmall
  unfold maxWindow at hwin
  unfold Item.last at hbeyond ⊢
  rw [hx.placed.last,hx.placed.seq,h.nxt]
  exact ⟨wrapsLte_serial (by omega) (by omega),wrapsGt_serial (by omega) (by omega)⟩

/-- The state after the first buffer of the queue was appended. -/
def afterAppend (t : Text) (x : Item) (n e : ℤ) : Text :=
  ⟨⟨serial (min (Item.last x) e),serial (e - min (Item.last x) e),
    t.rx.rxq ++ [clipped x.2 x.1 n e],t.rx.rxqOoo,t.rx.rxqOooLen-1⟩,true,t.fin || x.2.isFin⟩

theorem drain_due {t : Text} {x : Item} {rest : List Mbuf} (h : t.rx.At n e) (hn : n₀ ≤ n)
    (hwin : e - n₀ ≤ maxWindow) (hx : Queued Q n₀ e x) (hle : x.1 ≤ n) (hlt : n < Item.last x) :
    drain (x.2::rest) t = drain rest (afterAppend t x n e) := by
  obtain ⟨hend,hstart⟩ := queued_compare h hn hwin hx
  have hroom : x.2.isFin = true → n < e := fun hf => by
    have := hx.fin hf
    omega
  have happ := tcpRxAppendText_ok (r:={ t.rx with rxqOooLen := t.rx.rxqOooLen-1 })
    (h.congr rfl rfl) hx.placed hle hlt hx.small hroom
  rw [drain,if_neg (fun hw => by have := hend.mp hw; omega),
    if_neg (fun hw => by have := hstart.mp hw; omega),happ,ok_bind]
  rfl

theorem afterAppend_at {t : Text} {x : Item} (h : t.rx.At n e) (hlt : n < Item.last x) :
    (afterAppend t x n e).rx.At (min (Item.last x) e) e := by
  have hne := h.le
  have hb := h.bounded
  exact ⟨rfl,rfl,by omega,by omega⟩

theorem drain_spec (hQ : Clippable Q) (qs : List Item) : ∀ {t : Text} {n : ℤ}, t.rx.At n e →
    n₀ ≤ n → e - n₀ ≤ maxWindow → (∀ x ∈ qs, Queued Q n₀ e x) → SortedItems qs →
    ∃ t' n' new qs', drain (qs.map Prod.snd) t = .ok t' ∧ t.Ends t' Q n e n' new qs' ∧
      qs' <:+ qs ∧ ((∀ x ∈ qs, Item.last x ≤ e) → ∀ m ∈ new, 0 < m.span) := by
  induction qs with
  | nil =>
    intro t n h _ _ _ _
    refine ⟨_,n,[],[],rfl,⟨h.congr rfl rfl,Int.le_refl _,?_,rfl,rfl,?_,?_,?_⟩,
      suffix_refl _,by simp⟩ <;> simp
  | cons x qs ih =>
    intro t n h hn hwin hq hsorted
    obtain ⟨hfirst,hsorted'⟩ := pairwise_cons.mp hsorted
    have hq' : ∀ y ∈ qs, Queued Q n₀ e y := fun y hy => hq y (mem_cons_of_mem _ hy)
    have hx := hq x mem_cons_self
    obtain ⟨hend,hstart⟩ := queued_compare h hn hwin hx
    have hwider : ∀ {P : Item → Prop}, (∀ y ∈ x::qs, P y) → ∀ y ∈ qs, P y :=
      fun hall y hy => hall y (mem_cons_of_mem _ hy)
    rw [map_cons]
    by_cases hdone : Item.last x ≤ n
    · -- received already
      rw [drain,if_pos (hend.mpr hdone)]
      obtain ⟨t',n',new,qs',heq,hends,hsuf,hpos⟩ :=
        ih (t:=⟨{ t.rx with rxqOooLen := t.rx.rxqOooLen-1 },t.wake,t.fin⟩) (h.congr rfl rfl) hn
          hwin hq' hsorted'
      exact ⟨t',n',new,qs',heq,⟨hends.at',hends.le,hends.rxq,hends.filled,hends.queue,hends.rest,
        hends.wake,hends.fin⟩,hsuf.trans (suffix_cons _ _),fun hall => hpos (hwider hall)⟩
    · by_cases hahead : n < x.1
      · -- still out of order
        rw [drain,if_neg (fun hw => hdone (hend.mp hw)),if_pos (hstart.mpr hahead)]
        refine ⟨_,n,[],x::qs,rfl,⟨h.congr rfl rfl,Int.le_refl _,by simp,rfl,rfl,?_,by simp,by simp⟩,
          suffix_refl _,by simp⟩
        intro y hy
        rcases mem_cons.mp hy with rfl | hy
        · omega
        · have := hfirst y hy
          omega
      · have hle : x.1 ≤ n := by omega
        have hlt : n < Item.last x := by omega
        have hroom : x.2.isFin = true → n < e := fun hf => by
          have := hx.fin hf
          omega
        have hspan := clipped_span hle hlt h.le hroom
        rw [drain_due h hn hwin hx hle hlt]
        obtain ⟨t',n',new,qs',heq,hends,hsuf,hpos⟩ := ih (afterAppend_at h hlt)
          (by have := h.le; omega) hwin hq' hsorted'
        have hcontent := clipped_content hQ hx.content hle hlt fun hf => Or.inl (hx.fin hf)
        rw [Item.last,← hspan] at hends
        refine ⟨t',n',clipped x.2 x.1 n e::new,qs',heq,
          hends.cons rfl rfl rfl (clipped_placed hle hlt h.le hroom) hcontent,
          hsuf.trans (suffix_cons _ _),fun hall m hm => ?_⟩
        rcases mem_cons.mp hm with rfl | hm
        · have := hall x mem_cons_self
          unfold Item.last at this hlt
          omega
        · exact hpos (hwider hall) m hm

end Drain

section Insert

variable {Q : Content} {n e : ℤ} {x : Item}

/-- The search from the end of the queue keeps it sorted by the ends of the buffers. -/
theorem oooInsertRev_spec (hwin : e - n ≤ maxWindow) (hx : Placed x.1 x.2) (hstart : n < x.1)
    (hbelow : x.1 < e) (hsmall : x.2.span ≤ maxSpan) (rs : List Item)
    (hrs : ∀ y ∈ rs, Queued Q n e y) (hdesc : rs.Pairwise fun y z => Item.last z ≤ Item.last y) :
    oooInsertRev x.2 (rs.map Prod.snd) = none ∨
      ∃ rs' : List Item, oooInsertRev x.2 (rs.map Prod.snd) = some (rs'.map Prod.snd) ∧
        rs'.Pairwise (fun y z => Item.last z ≤ Item.last y) ∧ ∀ y, y ∈ rs' ↔ y = x ∨ y ∈ rs := by
  induction rs with
  | nil => exact Or.inr ⟨[x],rfl,pairwise_singleton _ _,by simp⟩
  | cons y rs ih =>
    obtain ⟨hfirst,hdesc'⟩ := pairwise_cons.mp hdesc
    have hy := hrs y mem_cons_self
    have hcmp : wrapsGt x.2.segEnd y.2.segEnd = true ↔ Item.last y < Item.last x := by
      have h₁ := hy.beyond
      have h₂ := hy.below
      have h₃ := hy.small
      have h₄ := x.2.span_nonneg
      unfold maxWindow at hwin
      unfold maxSpan at h₃ hsmall
      unfold Item.last at h₁ ⊢
      rw [hx.last,hy.placed.last]
      exact wrapsGt_serial (by omega) (by omega)
    rw [map_cons,oooInsertRev]
    by_cases hgt : Item.last y < Item.last x
    · right
      rw [if_pos (hcmp.mpr hgt)]
      refine ⟨x::y::rs,rfl,pairwise_cons.mpr ⟨fun z hz => ?_,hdesc⟩,by simp⟩
      rcases mem_cons.mp hz with rfl | hz
      · omega
      · have := hfirst z hz
        omega
    · rw [if_neg (fun hw => hgt (hcmp.mp hw))]
      split
      · exact Or.inl rfl
      · rcases ih (fun z hz => hrs z (mem_cons_of_mem _ hz)) hdesc' with hnone | ⟨rs',h,hd,hmem⟩
        · exact Or.inl (by rw [hnone,Option.map_none])
        · right
          refine ⟨y::rs',by rw [h,Option.map_some,map_cons],
            pairwise_cons.mpr ⟨fun z hz => ?_,hd⟩,fun z => ?_⟩
          · rcases (hmem z).mp hz with rfl | hz
            · omega
            · exact hfirst z hz
          · rw [mem_cons,hmem,mem_cons,or_left_comm]

theorem oooInsert_spec (hwin : e - n ≤ maxWindow) (hx : Placed x.1 x.2) (hstart : n < x.1)
    (hbelow : x.1 < e) (hsmall : x.2.span ≤ maxSpan) {qs : List Item}
    (hqs : ∀ y ∈ qs, Queued Q n e y) (hsorted : SortedItems qs) :
    oooInsert x.2 (qs.map Prod.snd) = none ∨
      ∃ qs' : List Item, oooInsert x.2 (qs.map Prod.snd) = some (qs'.map Prod.snd) ∧
        SortedItems qs' ∧ ∀ y, y ∈ qs' ↔ y = x ∨ y ∈ qs := by
  have hrev := oooInsertRev_spec hwin hx hstart hbelow hsmall qs.reverse
    (fun y hy => hqs y (mem_reverse.mp hy)) (pairwise_reverse.mpr hsorted)
  rw [oooInsert,← map_reverse]
  rcases hrev with hnone | ⟨rs,hsome,hdesc,hmem⟩
  · exact Or.inl (by rw [hnone,Option.map_none])
  · right
    refine ⟨rs.reverse,by rw [hsome,Option.map_some,map_reverse],
      pairwise_reverse.mpr hdesc,fun y => ?_⟩
    rw [mem_reverse,hmem,mem_reverse]

end Insert

/-! ### A segment -/

/-- What holds between two segments: the queue is sorted, and none of it is due. -/
structure IngressInv (Q : Content) (r : Ingress) (n e : ℤ) (qs : List Item) : Prop where
  at' : r.At n e
  queue : r.rxqOoo = qs.map Prod.snd
  sorted : SortedItems qs
  queued : ∀ x ∈ qs, Queued Q n e x

/-- The effect of taking a segment. -/
structure TextStep (Q : Content) (r : Ingress) (n e : ℤ) (qs : List Item) (x : Item) (t : Text)
    (n' : ℤ) (new : List Mbuf) (qs' : List Item) : Prop where
  inv : IngressInv Q t.rx n' e qs'
  rxq : t.rx.rxq = r.rxq ++ new
  filled : Contiguous Q n new n'
  fin : t.fin = new.any Mbuf.isFin
  wake : t.wake = true → new ≠ []
  kept : ∀ y ∈ qs', y = x ∧ n < x.1 ∨ y ∈ qs
  /-- nothing empty is appended if nothing in the queue reaches past the window -/
  nonempty : (∀ y ∈ qs, Item.last y ≤ e) → (n < x.1 → Item.last x ≤ e) → ∀ m ∈ new, 0 < m.span

section Segment

variable {Q : Content} {r : Ingress} {n e : ℤ} {qs : List Item} {x : Item}

theorem Ingress.At.window_zero (h : r.At n e) : r.rcvWnd = 0 ↔ e = n := by
  have hne := h.le
  have hb := h.bounded
  unfold maxWindow at hb
  rw [h.wnd,← BitVec.toNat_inj,serial_toNat (by omega) (by omega),BitVec.ofNat_eq_ofNat,
    BitVec.toNat_zero]
  omega

theorem fin_wakes (m : Mbuf) (r : Ingress) :
    ((has m.flags (tcpPush ||| tcpFin) || !r.rxq.isEmpty) && has m.flags tcpFin) = m.isFin := by
  rw [Mbuf.isFin]
  cases hf : has m.flags tcpFin with
  | false => rw [Bool.and_false]
  | true => rw [has_mono (by decide) hf,Bool.true_or,Bool.and_true]

theorem drainQueue_spec (hQ : Clippable Q) {t : Text} {n₀ : ℤ} (h : t.rx.At n e) (hn : n₀ ≤ n)
    (hwin : e - n₀ ≤ maxWindow) (hqueue : t.rx.rxqOoo = qs.map Prod.snd)
    (hq : ∀ y ∈ qs, Queued Q n₀ e y) (hsorted : SortedItems qs) :
    ∃ t' n' new qs', drainQueue t = .ok t' ∧ IngressInv Q t'.rx n' e qs' ∧ n ≤ n' ∧
      t'.rx.rxq = t.rx.rxq ++ new ∧ Contiguous Q n new n' ∧
      t'.wake = (t.wake || !new.isEmpty || decide (e = n')) ∧
      t'.fin = (t.fin || new.any Mbuf.isFin) ∧ (∀ y ∈ qs', y ∈ qs) ∧
      ((∀ y ∈ qs, Item.last y ≤ e) → ∀ m ∈ new, 0 < m.span) := by
  obtain ⟨t',n',new,qs',hdrain,hends,hsuf,hpos⟩ := drain_spec hQ qs h hn hwin hq hsorted
  have hsub : ∀ y ∈ qs', y ∈ qs := fun y hy => hsuf.subset hy
  refine ⟨{ t' with wake := t'.wake || t'.rx.rcvWnd = 0 },n',new,qs',?_,
    ⟨hends.at',hends.queue,hsorted.sublist hsuf.sublist,fun y hy => ?_⟩,hends.le,hends.rxq,
    hends.filled,?_,hends.fin,hsub,hpos⟩
  · rw [drainQueue,hqueue,hdrain]
    rfl
  · obtain ⟨hplaced,hbelow,-,hsmall,hcontent,hfin⟩ := hq y (hsub y hy)
    exact ⟨hplaced,hbelow,hends.rest y hy,hsmall,hcontent,hfin⟩
  · simp only [hends.wake,hends.at'.window_zero]

/-- A segment that reaches into the window is appended with what it makes due, or queued,
or left; nothing aborts as long as a queued FIN is inside the window. -/
theorem tcpRxText_spec (hQ : Clippable Q) (h : IngressInv Q r n e qs) (hx : Placed x.1 x.2)
    (hbelow : x.1 < e) (hbeyond : n < Item.last x) (hsmall : x.2.span ≤ maxSpan)
    (hcontent : Q x.1 x.2.data x.2.isFin)
    (hfin : x.2.isFin = true → Item.last x ≤ e ∨ x.1 ≤ n ∧ FinClips Q) :
    tcpRxText r x.2 = .ok none ∨
      ∃ t n' new qs', tcpRxText r x.2 = .ok (some t) ∧ TextStep Q r n e qs x t n' new qs' := by
  have hat := h.at'
  have hne := hat.le
  have hwin := hat.bounded
  have hcmp : wrapsLte x.2.segSeq r.rcvNxt = true ↔ x.1 ≤ n := by
    have hs := hsmall
    have hw := hwin
    unfold maxSpan at hs
    unfold maxWindow at hw
    unfold Item.last at hbeyond
    rw [hx.seq,hat.nxt]
    exact wrapsLte_serial (by omega) (by omega)
  rw [tcpRxText]
  by_cases hzero : e = n
  · rw [if_pos (hat.window_zero.mpr hzero)]
    exact Or.inl rfl
  rw [if_neg (fun h0 => hzero (hat.window_zero.mp h0))]
  by_cases hle : x.1 ≤ n
  · -- in order
    right
    have hroom : x.2.isFin = true → n < e := fun _ => by omega
    have happ := tcpRxAppendText_ok hat hx hle hbeyond hsmall hroom
    have hspan := clipped_span hle hbeyond hne hroom
    have hcont := clipped_content hQ hcontent hle hbeyond fun hf =>
      (hfin hf).imp_right And.right
    let n₁ := n + (clipped x.2 x.1 n e).span
    have hn₁ : n₁ = min (x.1+x.2.span) e := hspan
    unfold Item.last at hbeyond
    let rx : Ingress := ⟨serial n₁,serial (e-n₁),r.rxq ++ [clipped x.2 x.1 n e],r.rxqOoo,r.rxqOooLen⟩
    have hat₁ : rx.At n₁ e := ⟨rfl,rfl,by omega,by omega⟩
    obtain ⟨t',n',new,qs',hdrain,hinv,-,hrxq,hfill,-,hfinal,hsub,hpos⟩ :=
      drainQueue_spec (t:=⟨rx,has x.2.flags (tcpPush ||| tcpFin) || !r.rxq.isEmpty,
        (has x.2.flags (tcpPush ||| tcpFin) || !r.rxq.isEmpty) && has x.2.flags tcpFin⟩)
        hQ hat₁ (show n ≤ n₁ by omega) hwin h.queue h.queued h.sorted
    refine ⟨t',n',clipped x.2 x.1 n e::new,qs',?_,hinv,?_,
      ⟨⟨clipped_placed hle hbeyond hne hroom,hcont⟩,hfill⟩,?_,fun _ => cons_ne_nil _ _,
      fun y hy => Or.inr (hsub y hy),fun hall _ m hm => ?_⟩
    · rw [if_pos (hcmp.mpr hle),happ,ok_bind,← hn₁,hdrain,ok_map]
    · rw [hrxq,append_assoc,singleton_append]
    · rw [hfinal,any_cons,clipped_isFin]
      congr 1
      exact fin_wakes x.2 r
    · rcases mem_cons.mp hm with rfl | hm
      · omega
      · exact hpos hall m hm
  · rw [if_neg (fun hw => hle (hcmp.mp hw))]
    split
    · exact Or.inl rfl
    rw [h.queue]
    rcases oooInsert_spec hwin hx (by omega) hbelow hsmall h.queued h.sorted with
      hnone | ⟨qs₁,hsome,hsorted,hmem⟩
    · exact Or.inl (by rw [hnone]; rfl)
    · right
      have hlast : x.2.isFin = true → Item.last x ≤ e := fun hf => by
        rcases hfin hf with hin | ⟨hin,-⟩
        · exact hin
        · exact absurd hin hle
      have hq₁ : ∀ y ∈ qs₁, Queued Q n e y := by
        intro y hy
        rcases (hmem y).mp hy with rfl | hy
        · exact ⟨hx,hbelow,hbeyond,hsmall,hcontent,hlast⟩
        · exact h.queued y hy
      obtain ⟨t',n',new,qs',hdrain,hinv,-,hrxq,hfill,hwake,hfinal,hsub,hpos⟩ :=
        drainQueue_spec (t:=⟨{ r with rxqOoo := qs₁.map Prod.snd, rxqOooLen := r.rxqOooLen+1 },
          false,false⟩) hQ (hat.congr rfl rfl) (Int.le_refl n) hwin rfl hq₁ hsorted
      refine ⟨t',n',new,qs',?_,hinv,hrxq,hfill,?_,?_,fun y hy =>
        ((hmem y).mp (hsub y hy)).imp_left fun hx => ⟨hx,by omega⟩,
        fun hall hxe => hpos fun y hy => ?_⟩
      · rw [hsome]
        simp only [hdrain,ok_map]
      · rw [hfinal,Bool.false_or]
      · -- a window that closes was filled
        rintro hw rfl
        obtain rfl : n = n' := hfill
        rw [hwake] at hw
        simp at hw
        exact hzero hw
      · rcases (hmem y).mp hy with rfl | hy
        · exact hxe (by omega)
        · exact hall y hy

end Segment

end Vessel.Tcp
