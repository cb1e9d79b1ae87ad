import Vessel.TcpDelivery
import Vessel.TcpEdge

/-! A stream up to its FIN: what the reads return, and when the FIN takes effect. -/
namespace Vessel.Tcp

open Serial List

/-- The bytes that the calls of `tcp_read` return until one returns 0. -/
def delivered (returns : List (ℤ × List UInt8)) : List UInt8 :=
  (returns.takeWhile fun r => r.1 ≠ 0).flatMap Prod.snd

/-- Packets of a stream of `L` bytes with its FIN, reads of positive length, no failure and
no shutdown. -/
def StreamEvent (stream : ℕ → UInt8) (L : ℕ) (s : Sys) : Event → Prop
  | .recv _ p => Carries stream (some L) s p
  | .read len => 0 < len
  | .tryRead _ | .tryFinish | .shutdown | .fail _ => False
  | _ => True

/-- Accepted segments that are ahead of `rcv_nxt` or carry the FIN end within the window, and
no read ends inside the text of the buffer with the FIN. -/
def EndsWhole (s : Sys) : Event → Prop
  | .recv _ p => p.Accepted s.conn → p.Ahead s.conn ∨ p.segment.isFin = true → p.Inside s.conn
  | .read len => ∀ before m, s.conn.rx.rxq = before ++ [m] → m.isFin = true →
      len ≤ (before.flatMap Mbuf.data).length ∨ (s.conn.rx.rxq.flatMap Mbuf.data).length ≤ len
  | _ => True

/-- Calls that return something, and after the end of the stream only calls that return 0. -/
def EndsInZeros (returns : List (ℤ × List UInt8)) (closed : Bool) : Prop :=
  ∃ a b, returns = a ++ List.replicate b (0,[]) ∧ (∀ r ∈ a, r.1 ≠ 0) ∧ (b ≠ 0 → closed = true)

/-- The state of a stream whose FIN is at `L`. -/
structure EndInv (stream : ℕ → UInt8) (base : ℤ) (L : ℕ) (s : Sys) (n e : ℤ) (qs : List Item) :
    Prop where
  stream : StreamInv stream base (some L) s n
  tidy : Tidy s.conn e qs
  last : s.conn.rx.rxq.Pairwise fun m _ => m.isFin = false
  fin : ∀ m ∈ s.conn.rx.rxq, m.isFin = true → n = base + s.log.length + 1
  bytes : s.returns.flatMap Prod.snd ++
    (s.conn.rx.rxq.flatMap Mbuf.data).drop s.readers.sum = s.log
  state : finSeen s.conn.state = true ∨ s.conn.state = .closed → n = base + s.log.length + 1
  closed : s.conn.rxClosed = true →
    n = base + s.log.length + 1 ∧ s.returns.flatMap Prod.snd = s.log
  err : s.conn.err = 0
  returns : EndsInZeros s.returns s.conn.rxClosed
  left : n = base + s.log.length ∨ s.conn.rxClosed = true ∨ ∃ m ∈ s.conn.rx.rxq, m.isFin = true

section EndsInZeros

variable {returns : List (ℤ × List UInt8)} {r : ℤ × List UInt8}

theorem EndsInZeros.snoc_zero {closed : Bool} (h : EndsInZeros returns closed) :
    EndsInZeros (returns ++ [(0,[])]) true := by
  obtain ⟨a,b,rfl,ha,-⟩ := h
  refine ⟨a,b+1,?_,ha,fun _ => rfl⟩
  rw [replicate_succ',append_assoc]

theorem EndsInZeros.snoc {closed : Bool} (h : EndsInZeros returns false) (hr : r.1 ≠ 0) :
    EndsInZeros (returns ++ [r]) closed := by
  obtain ⟨a,b,rfl,ha,hb⟩ := h
  have hzero : b = 0 := by
    by_contra hne
    simpa using hb hne
  subst hzero
  refine ⟨a ++ [r],0,by simp,fun r' hr' => ?_,by simp⟩
  rcases mem_append.mp hr' with hr' | hr'
  · exact ha r' hr'
  · rwa [mem_singleton.mp hr']

/-- Calls that return 0 return no bytes, so the order of the bytes is that of all calls. -/
theorem EndsInZeros.delivered_eq {closed : Bool} (h : EndsInZeros returns closed) :
    delivered returns = returns.flatMap Prod.snd ∧ ((∃ r ∈ returns, r.1 = 0) → closed = true) := by
  obtain ⟨a,b,rfl,ha,hb⟩ := h
  have hzeros : (List.replicate b ((0 : ℤ),([] : List UInt8))).flatMap Prod.snd = [] := by
    simp [flatMap_eq_nil_iff]
  have hnone : (List.replicate b ((0 : ℤ),([] : List UInt8))).takeWhile (fun r => r.1 ≠ 0) = [] := by
    cases b <;> simp [replicate_succ]
  refine ⟨?_,?_⟩
  · rw [delivered,takeWhile_append_of_pos (by simpa using ha),hnone,append_nil,
      flatMap_append,hzeros,append_nil]
  · rintro ⟨r,hr,hr0⟩
    rcases mem_append.mp hr with hr | hr
    · exact absurd hr0 (ha r hr)
    · exact hb (mem_replicate.mp hr).1

end EndsInZeros

section End

variable {stream : ℕ → UInt8} {base W : ℤ} {L : ℕ} {s : Sys} {n e : ℤ} {qs : List Item}

theorem EndInv.keeps {c' : Conn} (h : EndInv stream base L s n e qs) (hk : Keeps s.conn c')
    (hl : Later s.conn.state c'.state) (hstream : StreamInv stream base (some L) { s with conn := c' } n)
    (htidy : Tidy c' e qs) : EndInv stream base L { s with conn := c' } n e qs where
  stream := hstream
  tidy := htidy
  last := by rw [hk.rx]; exact h.last
  fin := by rw [hk.rx]; exact h.fin
  bytes := by rw [hk.rx]; exact h.bytes
  state := fun hs => h.state (by
    rcases hs with hs | hs
    · exact Or.inl (hl.fin hs)
    · exact (hl.closed hs).symm)
  closed := by rw [hk.rxClosed]; exact h.closed
  err := hk.err.trans h.err
  returns := by rw [hk.rxClosed]; exact h.returns
  left := by rw [hk.rx,hk.rxClosed]; exact h.left

theorem EndInv.taken {x : Item} {c' : Conn} {n' : ℤ} {new : List Mbuf} {qs' : List Item}
    (h : EndInv stream base L s n e qs)
    (hinv : Inv (OnStream stream base (some L)) W s.conn s.readers n e qs)
    (ht : Taken (OnStream stream base (some L)) s.conn n e qs x c' n' new qs')
    (hstream : StreamInv stream base (some L)
      { s with conn := c', log := s.log ++ new.flatMap Mbuf.data } n') (htidy : Tidy c' e qs') :
    EndInv stream base L { s with conn := c', log := s.log ++ new.flatMap Mbuf.data } n' e qs' := by
  rcases h.stream.at' with hn | ⟨hF,hn⟩
  · obtain ⟨-,-,hno,hyes⟩ := contiguous_stream ht.filled hn
    have hnofin : ∀ m ∈ s.conn.rx.rxq, m.isFin = false := fun m hm => by
      by_contra hf
      have := h.fin m hm (Bool.not_eq_false _ ▸ hf)
      omega
    have hopen : s.conn.rxClosed = false := by
      by_contra hc
      have := (h.closed (Bool.not_eq_false _ ▸ hc)).1
      omega
    have hclosed : c'.rxClosed = false := ht.keeps.rxClosed.trans hopen
    have hend : new.any Mbuf.isFin = true →
        n' = base + (s.log ++ new.flatMap Mbuf.data).length + 1 := fun hany => by
      have := (hyes hany).2
      rw [length_append]
      omega
    refine ⟨hstream,htidy,?_,fun m hm hf => ?_,?_,fun hs => ?_,fun hc => ?_,
      ht.keeps.err.trans h.err,?_,?_⟩
    · rw [ht.rxq]
      exact pairwise_append.mpr
        ⟨h.last,contiguous_fin_last ht.filled,fun m hm _ _ => hnofin m hm⟩
    · rw [ht.rxq] at hm
      rcases mem_append.mp hm with hm | hm
      · rw [hnofin m hm] at hf
        contradiction
      · exact hend (any_eq_true.mpr ⟨m,hm,hf⟩)
    · have hunread := hinv.owned.unread_nonneg
      rw [unread] at hunread
      change s.returns.flatMap Prod.snd ++ (c'.rx.rxq.flatMap Mbuf.data).drop s.readers.sum = _
      rw [ht.rxq,flatMap_append,drop_append_of_le_length (by omega),← append_assoc,
        h.bytes]
    · cases hany : new.any Mbuf.isFin with
      | true => exact hend hany
      | false =>
        refine absurd ?_ ht.before
        rcases hs with hs | hs
        · exact Or.inl ((ht.later hany).fin hs)
        · exact ((ht.later hany).closed hs).symm
    · dsimp only at hc
      rw [hclosed] at hc
      contradiction
    · change EndsInZeros s.returns c'.rxClosed
      rw [hclosed,← hopen]
      exact h.returns
    · cases hany : new.any Mbuf.isFin with
      | true =>
        obtain ⟨m,hm,hf⟩ := any_eq_true.mp hany
        refine Or.inr (Or.inr ⟨m,?_,hf⟩)
        rw [ht.rxq]
        exact mem_append_right _ hm
      | false =>
        left
        have := hno hany
        change n' = base + (s.log ++ new.flatMap Mbuf.data).length
        rw [length_append]
        omega
  · -- after the FIN only the state changes
    have hnew := contiguous_past_end ht.filled hF hn
    subst hnew
    obtain rfl : n = n' := ht.filled
    have hrxq : c'.rx.rxq = s.conn.rx.rxq := by rw [ht.rxq,append_nil]
    have hclosed : c'.rxClosed = s.conn.rxClosed := ht.keeps.rxClosed
    rw [flatMap_nil,append_nil] at hstream ⊢
    exact ⟨hstream,htidy,by rw [hrxq]; exact h.last,fun _ _ _ => hn,by rw [hrxq]; exact h.bytes,
      fun _ => hn,by rw [hclosed]; exact h.closed,ht.keeps.err.trans h.err,
      by rw [hclosed]; exact h.returns,by rw [hrxq,hclosed]; exact h.left⟩

/-- A read that looks at the FIN has taken all there is. -/
theorem read_sawFin {q : List Mbuf} {len : ℕ} (hlast : q.Pairwise fun m _ => m.isFin = false)
    (hwhole : ∀ before m, q = before ++ [m] → m.isFin = true →
      len ≤ (before.flatMap Mbuf.data).length ∨ (q.flatMap Mbuf.data).length ≤ len)
    (hsaw : (takeLoop len q 0).sawFin = true) :
    (q.flatMap Mbuf.data).length ≤ (takeLoop len q 0).readlen ∧ ∃ m ∈ q, m.isFin = true := by
  have ht := takeLoop_of len q 0 (Nat.zero_le _)
  have hcases := takeLoop_sawFin hsaw
  generalize takeLoop len q 0 = t at ht hcases ⊢
  have hsplit := ht.split
  have hlength : (q.flatMap Mbuf.data).length =
      (t.whole.flatMap Mbuf.data).length + (t.left.flatMap Mbuf.data).length := by
    conv_lhs => rw [hsplit]
    rw [flatMap_append,length_append]
  rw [hsplit] at hlast
  obtain ⟨-,hlastLeft,hcross⟩ := pairwise_append.mp hlast
  rcases hcases with ⟨m,hm,hf⟩ | ⟨m,rest,hleft,hf,hstop⟩
  · have hnil : t.left = [] := by
      by_contra hne
      obtain ⟨m',hm'⟩ := exists_mem_of_ne_nil _ hne
      rw [hcross m hm m' hm'] at hf
      contradiction
    have hout : t.inside = false := by
      by_contra hi
      obtain ⟨-,m',rest,hleft,-⟩ := ht.inside (Bool.not_eq_false _ ▸ hi)
      rw [hnil] at hleft
      contradiction
    refine ⟨?_,m,by rw [hsplit]; exact mem_append_left _ hm,hf⟩
    rw [hlength,hnil,ht.whole hout]
    simp
  · have hrest : rest = [] := by
      rw [hleft,pairwise_cons] at hlastLeft
      by_contra hne
      obtain ⟨m',hm'⟩ := exists_mem_of_ne_nil _ hne
      rw [hlastLeft.1 m' hm'] at hf
      contradiction
    subst hrest
    rw [hleft] at hlength hsplit
    rw [flatMap_cons,flatMap_nil,append_nil] at hlength
    refine ⟨?_,m,by rw [hsplit]; simp,hf⟩
    cases hi : t.inside with
    | true =>
      obtain ⟨hlen,m',rest',hleft',hlo,hhi⟩ := ht.inside hi
      rw [hleft] at hleft'
      obtain rfl := (List.cons.inj hleft').1
      rcases hwhole _ _ hsplit hf with h | h
      · omega
      · omega
    | false =>
      rcases hstop with hin | hempty
      · rw [hi] at hin
        contradiction
      · rw [ht.whole hi,hlength,hempty]
        simp

/-- A read that returns 0 has found a FIN without text. -/
theorem read_zero {q : List Mbuf} {len : ℕ} (hlen : 0 < len) (hne : q ≠ [])
    (htidy : ∀ m ∈ q, 0 < m.span) (hzero : (takeLoop len q 0).readlen = 0) :
    (takeLoop len q 0).sawFin = true := by
  obtain ⟨m,rest,rfl⟩ := exists_cons_of_ne_nil hne
  by_cases hm : m.data = []
  · have hf : m.isFin = true := by
      have hspan := htidy m mem_cons_self
      rw [Mbuf.span,hm] at hspan
      by_contra hf
      rw [if_neg hf] at hspan
      simp at hspan
    rw [takeLoop_fin_head hlen hf hm]
  · have := takeLoop_pos hlen rest hm
    omega

theorem EndInv.read {len : ℕ} (h : EndInv stream base L s n e qs)
    (hopen : s.conn.rxClosed = false) (hreaders : s.readers = []) (hne : s.conn.rx.rxq ≠ [])
    (hlen : 0 < len) (hwhole : EndsWhole s (.read len))
    (hstream : StreamInv stream base (some L) { s with conn := (takeText s.conn len).1 } n)
    (htidy : Tidy (takeText s.conn len).1 (e + (takeLoop len s.conn.rx.rxq 0).readlen) qs) :
    EndInv stream base L { s with
      conn := (takeText s.conn len).1
      readers := s.readers ++ (takeText s.conn len).2.cpylen.toList
      returns := s.returns ++ [((takeText s.conn len).2.ret,(takeText s.conn len).2.bytes)] }
      n (e + (takeLoop len s.conn.rx.rxq 0).readlen) qs := by
  have ht := takeLoop_of len s.conn.rx.rxq 0 (Nat.zero_le _)
  have hsaw := read_sawFin h.last hwhole
  have hzero := read_zero hlen hne h.tidy.rxq
  have hmem : ∀ m ∈ (takeLoop len s.conn.rx.rxq 0).whole, m.isFin = true →
      (takeLoop len s.conn.rx.rxq 0).sawFin = true := fun m => takeLoop_sawFin_of_mem
  have hbytes := h.bytes
  rw [hreaders,sum_nil,drop_zero] at hbytes
  have hleft := ht.drop_left
  have hreturns := h.returns
  rw [hopen] at hreturns
  rw [takeText_fst] at hstream htidy ⊢
  rw [takeText_snd,hreaders,nil_append]
  generalize takeLoop len s.conn.rx.rxq 0 = t at ht hsaw hzero hmem hleft htidy hstream ⊢
  have hsum : (if t.inside then some (len - (t.whole.flatMap Mbuf.data).length)
      else none).toList.sum = if t.inside then len - (t.whole.flatMap Mbuf.data).length else 0 := by
    cases t.inside <;> simp
  have hsub : ∀ m ∈ t.left, m ∈ s.conn.rx.rxq := fun m hm => by
    rw [ht.split]
    exact mem_append_right _ hm
  have hclosed : (s.conn.rxClosed || t.sawFin) = t.sawFin := by rw [hopen,Bool.false_or]
  refine ⟨⟨hstream.irs,hstream.log,hstream.within,hstream.at'⟩,htidy,?_,
    fun m hm => h.fin m (hsub m hm),?_,h.state,fun hc => ?_,h.err,?_,?_⟩
  · have hlast := h.last
    rw [ht.split] at hlast
    exact (pairwise_append.mp hlast).2.1
  · dsimp only
    rw [hsum,hleft,flatMap_append,flatMap_singleton,append_assoc,
      take_append_drop,hbytes]
  · dsimp only at hc ⊢
    rw [hclosed] at hc
    obtain ⟨hall,m,hm,hf⟩ := hsaw hc
    refine ⟨h.fin m hm hf,?_⟩
    rw [flatMap_append,flatMap_singleton,take_of_length_le hall,hbytes]
  · dsimp only
    rw [hclosed]
    by_cases hread : t.readlen = 0
    · rw [hzero hread,hread]
      exact hreturns.snoc_zero
    · exact hreturns.snoc (by simpa using hread)
  · dsimp only
    rw [hclosed]
    rcases h.left with hn | hc | ⟨m,hm,hf⟩
    · exact Or.inl hn
    · rw [hopen] at hc
      contradiction
    · rw [ht.split] at hm
      rcases mem_append.mp hm with hm | hm
      · exact Or.inr (Or.inl (hmem m hm hf))
      · exact Or.inr (Or.inr ⟨m,hm,hf⟩)

theorem EndInv.finish {k : ℕ} {m : Mbuf} {rest : List Mbuf} (h : EndInv stream base L s n e qs)
    (hreaders : s.readers = [k]) (hq : s.conn.rx.rxq = m::rest) (hk : k < m.data.length)
    {c' : Conn} (hc : c' = { s.conn with
      rxExclusive := false
      rx := { s.conn.rx with
        rxq := ⟨m.data.drop k,m.segSeq + BitVec.ofNat 32 k,m.segEnd,m.flags⟩::rest } })
    (htidy : Tidy c' e qs) : EndInv stream base L { s with conn := c', readers := [] } n e qs := by
  subst hc
  have hbytes := h.bytes
  rw [hreaders,hq,sum_singleton,flatMap_cons,drop_append_of_le_length (by omega)]
    at hbytes
  have hlast := h.last
  rw [hq,pairwise_cons] at hlast
  have hfin := h.fin
  rw [hq] at hfin
  refine ⟨⟨h.stream.irs,h.stream.log,h.stream.within,h.stream.at'⟩,htidy,
    pairwise_cons.mpr hlast,fun m' hm' => ?_,?_,h.state,h.closed,h.err,h.returns,?_⟩
  · rcases mem_cons.mp hm' with rfl | hm'
    · exact hfin m mem_cons_self
    · exact hfin m' (mem_cons_of_mem _ hm')
  · exact hbytes
  · rcases h.left with hn | hc | ⟨m',hm',hf⟩
    · exact Or.inl hn
    · exact Or.inr (Or.inl hc)
    · right
      right
      rw [hq] at hm'
      rcases mem_cons.mp hm' with rfl | hm'
      · exact ⟨_,mem_cons_self,hf⟩
      · exact ⟨m',mem_cons_of_mem _ hm',hf⟩

theorem StreamEvent.no_syn {ev : Event} (hev : StreamEvent stream L s ev) (env : Env) (p : Packet)
    (h : ev = .recv env p) : has p.flags tcpSyn = false ∧ has p.flags tcpRst = false := by
  subst h
  exact Carries.no_syn hev

theorem EndsWhole.ahead {ev : Event} (h : EndsWhole s ev) : AheadInside s ev := by
  cases ev with
  | recv env p => exact fun hacc hahead => h hacc (Or.inl hahead)
  | _ => trivial

theorem endInv_moves {s' : Sys} {n' e' : ℤ} {qs' : List Item} {ev : Event}
    (h : EndInv stream base L s n e qs)
    (hinv : Inv (OnStream stream base (some L)) W s.conn s.readers n e qs)
    (hev : StreamEvent stream L s ev) (hwhole : EndsWhole s ev)
    (hmove : Moves (OnStream stream base (some L)) s n e qs ev s' n' e' qs') :
    EndInv stream base L s' n' e' qs' := by
  have hsyn : ∀ env p, ev = .recv env p → has p.flags tcpSyn = false := fun env p hp =>
    (hev.no_syn env p hp).1
  have hstream := streamInv_moves h.stream hsyn hmove
  have htidy := tidy_moves h.tidy hinv hwhole.ahead hmove hsyn
  cases hmove with
  | quiet hk hl => exact h.keeps hk hl hstream htidy
  | failed _ hcause =>
    rcases hcause with ⟨err,rfl⟩ | ⟨env,p,rfl,hflag⟩
    · exact hev.elim
    · obtain ⟨hs,hr⟩ := hev.no_syn env p rfl
      rw [hs,hr] at hflag
      simp at hflag
  | synced hflag =>
    rw [hsyn _ _ rfl] at hflag
    contradiction
  | taken _ _ _ _ ht => exact h.taken hinv ht hstream htidy
  | shutdown => exact hev.elim
  | refused hclosed =>
    obtain ⟨hn,hbytes⟩ := h.closed hclosed
    refine ⟨⟨hstream.irs,hstream.log,hstream.within,hstream.at'⟩,htidy,h.last,h.fin,?_,h.state,
      fun _ => ⟨hn,?_⟩,h.err,?_,h.left⟩
    · rw [flatMap_append,flatMap_singleton,append_nil]
      exact h.bytes
    · rw [flatMap_append,flatMap_singleton,append_nil,hbytes]
    · change EndsInZeros (s.returns ++ [(-s.conn.err,[])]) s.conn.rxClosed
      rw [h.err,hclosed]
      exact h.returns.snoc_zero
  | read hopen hfree hne =>
    have hreaders : s.readers = [] := by
      rcases hinv.owned with ⟨-,hr⟩ | ⟨hex,-⟩
      · exact hr
      · rw [hfree] at hex
        contradiction
    exact h.read hopen hreaders hne hev hwhole
      ⟨hstream.irs,hstream.log,hstream.within,hstream.at'⟩ htidy
  | idle => exact hev.elim
  | tryRead => exact hev.elim
  | finish hreader hq hk => exact h.finish hreader hq hk rfl htidy
  | tryFinish => exact hev.elim

end End

/-- What the reads return until one returns 0 is the whole stream, the FIN takes effect only
after the last byte, and from then on no read waits. -/
theorem stream_delivered (stream : ℕ → UInt8) (L : ℕ) {c : Conn} {s : Sys} (hc : Fresh maxWindow c)
    (hirs : c.rx.rcvNxt = c.irs + 1) (hopen : c.rxClosed = false) (herr : c.err = 0)
    (hstate : ¬(finSeen c.state = true ∨ c.state = .closed))
    (h : Run (fun s ev => StreamEvent stream L s ev ∧ EndsWhole s ev) (.start c) s) :
    delivered s.returns <+: slice stream 0 L ∧
      ((∃ r ∈ s.returns, r.1 = 0) → delivered s.returns = slice stream 0 L) ∧
      (finSeen s.conn.state = true ∨ s.conn.rxClosed = true → s.log = slice stream 0 L ∧
        s.conn.rx.rcvNxt = s.conn.irs + 1 + BitVec.ofNat 32 (L+1) ∧
        (s.conn.rxExclusive = false → ∀ len, tcpReadWait s.conn len ≠ none)) := by
  let base : ℤ := c.rx.rcvNxt.toNat
  have hbase : c.rx.rcvNxt = serial base := (serial_self _).symm
  have hstart : EndInv stream base L (.start c) base (base + c.rx.rcvWnd.toNat) [] := by
    refine ⟨⟨hirs.symm.trans hbase,by simp [Sys.start,slice],by simp [Sys.start],
      Or.inl (by simp [Sys.start])⟩,⟨?_,by simp⟩,?_,?_,?_,fun hs => absurd hs hstate,?_,herr,
      ⟨[],0,rfl,by simp,by simp⟩,Or.inl (by simp [Sys.start])⟩
    · simp [Sys.start,hc.rxq]
    · simp [Sys.start,hc.rxq]
    · simp [Sys.start,hc.rxq]
    · simp [Sys.start,hc.rxq]
    · simp [Sys.start,hopen]
  obtain ⟨⟨n,e,qs,hinv,hend⟩,-⟩ := Run.positions
    (P:=fun s n e qs => EndInv stream base L s n e qs) onStream_clippable (Int.le_refl _)
    (fun s n e qs ev hs hev hinv => by
      cases ev with
      | recv env p =>
        exact Carries.brings hev.1 hs.stream hinv.ingress.at' fun a ha hbelow hbeyond hacc hf =>
          (p.inside_iff hinv.ingress.at' hacc.passes ha hbelow hbeyond).mp (hev.2 hacc (Or.inr hf))
      | tryFinish => exact hev.1.elim
      | _ => trivial)
    (fun s n e qs ev s' n' e' qs' hs hev hinv hmove => endInv_moves hs hinv hev.1 hev.2 hmove)
    h (hc.inv (Int.le_refl _) hbase) hstart
  have hlength : n = base + s.log.length + 1 → s.log.length = L := fun hn => by
    rcases hend.stream.at' with hn' | ⟨hL,-⟩
    · omega
    · exact (Option.some.inj hL).symm
  obtain ⟨hdel,hzero⟩ := hend.returns.delivered_eq
  rw [hdel]
  refine ⟨?_,fun hz => ?_,fun hfin => ?_⟩
  · have hlog : slice stream 0 s.log.length <+: slice stream 0 L := by
      rw [← slice_take stream 0 (hend.stream.within L rfl)]
      exact take_prefix _ _
    rw [← hend.stream.log,← hend.bytes] at hlog
    exact (prefix_append _ _).trans hlog
  · obtain ⟨hn,hbytes⟩ := hend.closed (hzero hz)
    rw [hbytes,hend.stream.log,hlength hn]
  · have hn : n = base + s.log.length + 1 := by
      rcases hfin with hs | hc
      · exact hend.state (Or.inl hs)
      · exact (hend.closed hc).1
    have hL := hlength hn
    refine ⟨by rw [hend.stream.log,hL],?_,fun hfree len hwait => ?_⟩
    · rw [hinv.ingress.at'.nxt,hend.stream.irs,← serial_natCast,serial_add,hn,hL,
        show base + (L : ℤ) + 1 = base + ((L+1 : ℕ) : ℤ) by omega]
    · -- the FIN is in the queue, or a read has seen it
      have hactive : s.conn.rxClosed = true ∨ s.conn.rx.rxq ≠ [] := by
        rcases hend.left with hn' | hc | ⟨m,hm,-⟩
        · omega
        · exact Or.inl hc
        · exact Or.inr (ne_nil_of_mem hm)
      have hgo : ¬(!s.conn.rxClosed && (s.conn.rxExclusive || s.conn.rx.rxq.isEmpty)) = true := by
        rcases hactive with hc | hne
        · simp [hc]
        · simp [hfree,hne]
      rw [tcpReadWait,if_neg hgo] at hwait
      split at hwait <;> simp at hwait

theorem counted_stream {s : Sys} {i L : ℕ} {len : Fin 1461} {flags : Flags}
    (hflags : has flags (tcpSyn ||| tcpRst) = false) (hirs : s.conn.irs = 0) (hi : i ≤ 2^31)
    (hlog : s.log.length ≤ 2^31) (hfin : has flags tcpFin = true → L = i + len)
    (hwithin : i + len ≤ L) : StreamEvent UInt8.ofNat L s (counted i len flags) := by
  have hlen : (slice UInt8.ofNat i len).length = len := slice_length ..
  refine ⟨hflags,i,counted_seq hirs i,by omega,by omega,?_,fun hf => ?_,fun L' hL => ?_⟩
  · change slice UInt8.ofNat i len = slice UInt8.ofNat i (slice UInt8.ofNat i len).length
    rw [hlen]
  · change some L = some (i + (slice UInt8.ofNat i len).length)
    rw [hlen,hfin hf]
  · change i + (slice UInt8.ofNat i len).length ≤ L'
    rw [hlen,← Option.some.inj hL]
    exact hwithin

/-- The last two of five bytes come first, with the FIN; a read takes all. -/
theorem stream_delivered_reordered :
    delivered (((((Sys.start (.opened 100)).next (counted 3 2 (tcpFin ||| tcpAck))).next
      (counted 0 3 tcpAck)).next (.read 9)).next (.read 9)).returns = slice UInt8.ofNat 0 5 := by
  have h₁ : Run (fun s ev => StreamEvent UInt8.ofNat 5 s ev ∧ EndsWhole s ev) (.start (.opened 100)) _ :=
    Run.next .refl (counted 3 2 (tcpFin ||| tcpAck))
      ⟨counted_stream (by decide) rfl (by decide) (by decide) (by decide) (by decide),
        fun _ _ => by decide +kernel⟩ (by decide +kernel)
  have h₂ := h₁.next (counted 0 3 tcpAck)
    ⟨counted_stream (by decide) (by decide +kernel) (by decide) (by decide +kernel) (by decide)
      (by decide),fun _ _ => by decide +kernel⟩ (by decide +kernel)
  have h₃ := h₂.next (.read 9) ⟨Nat.succ_pos _,fun _ _ _ _ => Or.inr (by decide +kernel)⟩
    (by decide +kernel)
  have h₄ := h₃.next (.read 9) ⟨Nat.succ_pos _,fun _ _ _ _ => Or.inr (by decide +kernel)⟩
    (by decide +kernel)
  exact (stream_delivered UInt8.ofNat 5 (fresh_opened 100 (by decide)) rfl rfl rfl (by decide)
    h₄).2.1 ⟨(0,[]),by decide +kernel,rfl⟩

/-- A run of the stream of `L` bytes in which a read returns 0 before the end. -/
def EndsShort (wnd : BitVec 32) (L : ℕ) (s : Sys) : Prop :=
  Run (StreamEvent UInt8.ofNat L) (.start (.opened wnd)) s ∧ (∃ r ∈ s.returns, r.1 = 0) ∧
    delivered s.returns ≠ slice UInt8.ofNat 0 L

/-- Five bytes with the FIN in a window of five: a byte is cut off in place of the FIN, which
takes effect.  Five bytes with the FIN of which a read takes three: the next read returns 0.
Ten bytes ahead that reach past a window of ten: the read after the first ten returns 0. -/
theorem stream_cut_short :
    (∃ s, EndsShort 5 5 s ∧ finSeen s.conn.state = true ∧ s.log ≠ slice UInt8.ofNat 0 5) ∧
      (∃ s, EndsShort 100 5 s) ∧ ∃ s, EndsShort 10 15 s := by
  refine ⟨?_,?_,?_⟩
  · have h₁ : Run (StreamEvent UInt8.ofNat 5) (.start (.opened 5)) _ :=
      Run.next .refl (counted 0 5 (tcpFin ||| tcpAck))
        (counted_stream (by decide) rfl (by decide) (by decide) (by decide) (by decide))
        (by decide +kernel)
    have h₂ := h₁.next (.read 9) (Nat.succ_pos _) (by decide +kernel)
    have h₃ := h₂.next (.read 9) (Nat.succ_pos _) (by decide +kernel)
    exact ⟨_,⟨h₃,⟨(0,[]),by decide +kernel,rfl⟩,by decide +kernel⟩,by decide +kernel,
      by decide +kernel⟩
  · have h₁ : Run (StreamEvent UInt8.ofNat 5) (.start (.opened 100)) _ :=
      Run.next .refl (counted 0 5 (tcpFin ||| tcpAck))
        (counted_stream (by decide) rfl (by decide) (by decide) (by decide) (by decide))
        (by decide +kernel)
    have h₂ := h₁.next (.read 3) (Nat.succ_pos _) (by decide +kernel)
    have h₃ := h₂.next (.finish 0) trivial (by decide +kernel)
    have h₄ := h₃.next (.read 9) (Nat.succ_pos _) (by decide +kernel)
    exact ⟨_,h₄,⟨(0,[]),by decide +kernel,rfl⟩,by decide +kernel⟩
  · have h₁ : Run (StreamEvent UInt8.ofNat 15) (.start (.opened 10)) _ :=
      Run.next .refl (counted 5 10 tcpAck)
        (counted_stream (by decide) rfl (by decide) (by decide) (by decide) (by decide))
        (by decide +kernel)
    have h₂ := h₁.next (counted 0 10 tcpAck)
      (counted_stream (by decide) (by decide +kernel) (by decide) (by decide +kernel) (by decide)
        (by decide)) (by decide +kernel)
    have h₃ := h₂.next (.read 10) (Nat.succ_pos _) (by decide +kernel)
    have h₄ := h₃.next (.read 5) (Nat.succ_pos _) (by decide +kernel)
    exact ⟨_,h₄,⟨(0,[]),by decide +kernel,rfl⟩,by decide +kernel⟩

end Vessel.Tcp
