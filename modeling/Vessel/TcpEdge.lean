import Vessel.TcpRun

/-! Segments at the edge of the receive window.
A segment is accepted if its first number is in the window, and queued as it is when it is
ahead of `rcv_nxt`.  If it reaches past the window it may be cut when it is drained, and by
then the window may be closed. -/
namespace Vessel.Tcp

open Serial List

/-- The segment begins after `rcv_nxt`. -/
def Packet.Ahead (p : Packet) (c : Conn) : Prop := wrapsGt p.seq c.rx.rcvNxt = true

/-- The segment with its FIN ends within the window. -/
def Packet.Inside (p : Packet) (c : Conn) : Prop :=
  wrapsLte (p.seq + p.mbuf.spanWord) (c.rx.rcvNxt + c.rx.rcvWnd) = true

instance (p : Packet) (c : Conn) : Decidable (p.Ahead c) := inferInstanceAs (Decidable (_ = true))

instance (p : Packet) (c : Conn) : Decidable (p.Inside c) := inferInstanceAs (Decidable (_ = true))

section Edge

variable {Q : Content} {c : Conn} {p : Packet} {a n e : ℤ}

theorem Packet.ahead_iff (hat : c.rx.At n e) (hpass : p.Passes c) (ha : p.seq = serial a)
    (hbelow : a < e) (hbeyond : n < a + p.segment.span) : p.Ahead c ↔ n < a := by
  have hb := hat.bounded
  have hspan := hpass.spanWord_eq.2
  unfold maxWindow at hb
  unfold maxSpan at hspan
  rw [Packet.Ahead,ha,hat.nxt]
  exact wrapsGt_serial (by omega) (by omega)

theorem Packet.inside_iff (hat : c.rx.At n e) (hpass : p.Passes c) (ha : p.seq = serial a)
    (hbelow : a < e) (hbeyond : n < a + p.segment.span) :
    p.Inside c ↔ a + p.segment.span ≤ e := by
  have hb := hat.bounded
  have hle := hat.le
  have hspan := hpass.spanWord_eq.2
  have hlast : p.seq + p.mbuf.spanWord = serial (a + p.segment.span) := (hpass.placed ha).last
  unfold maxWindow at hb
  unfold maxSpan at hspan
  rw [Packet.Inside,hlast,hat.edge]
  exact wrapsLte_serial (by omega) (by omega)

end Edge

/-! ### Aborts -/

/-- Any packets and reads; an accepted FIN that is ahead of `rcv_nxt` is inside the window, and
`tcp_try_read` does not end while another read has `rx_exclusive`. -/
def FinInside (s : Sys) : Event → Prop
  | .recv _ p => p.segment.isFin = true → p.Accepted s.conn → p.Ahead s.conn → p.Inside s.conn
  | .tryFinish => s.conn.rxExclusive = false
  | _ => True

theorem errors_endless {c : Conn} {s : Sys} (hc : Fresh maxWindow c)
    (h : Run FinInside (.start c) s) :
    ∀ ev, FinInside s ev → ∀ a, s.step ev = .error a → a = .endless := by
  have hclip : Clippable fun _ _ _ => True := ⟨fun _ _ => trivial,fun _ _ => trivial⟩
  have hrun := Run.positions (P:=fun _ _ _ _ => True) hclip (Int.le_refl _)
    (fun s n e qs ev _ hev hinv => by
      cases ev with
      | recv env p =>
        intro a ha hbelow hbeyond hacc
        refine ⟨trivial,fun hf => ?_⟩
        by_cases hahead : n < a
        · have hahead' := (p.ahead_iff hinv.ingress.at' hacc.passes ha hbelow hbeyond).mpr hahead
          exact Or.inl ((p.inside_iff hinv.ingress.at' hacc.passes ha hbelow hbeyond).mp
            (hev hf hacc hahead'))
        · exact Or.inr ⟨by omega,fun _ _ => trivial⟩
      | tryFinish => exact hev
      | _ => trivial)
    (fun _ _ _ _ _ _ _ _ _ _ _ _ _ => trivial) h (hc.inv (Int.le_refl _) (serial_self _).symm) trivial
  exact fun ev hev a herr => (hrun.2 ev hev a herr).1

theorem receive_no_bugOn {c : Conn} {s : Sys} (hc : Fresh maxWindow c)
    (h : Run FinInside (.start c) s) : ∀ ev, FinInside s ev → s.step ev ≠ .error .bugOn := by
  intro ev hev herr
  have := errors_endless hc h ev hev _ herr
  contradiction

/-- A FIN two bytes ahead, in a window of ten. -/
theorem receive_no_bugOn_inside :
    ((Sys.start (.opened 10)).next (.arrive 4 [1,2] (tcpFin ||| tcpAck) (by decide))).step
      (.arrive 1 [1,2,3,4,5] tcpAck (by decide)) ≠ .error .bugOn := by
  have hfin : FinInside (.start (.opened 10)) (.arrive 4 [1,2] (tcpFin ||| tcpAck) (by decide)) :=
    fun _ _ _ => by decide
  have h : Run FinInside (.start (.opened 10))
      ((Sys.start (.opened 10)).next (.arrive 4 [1,2] (tcpFin ||| tcpAck) (by decide))) :=
    Run.next .refl _ hfin (by decide +kernel)
  exact receive_no_bugOn (fresh_opened 10 (by decide)) h _ fun hf => absurd hf (by decide)

/-- In a window of five bytes a FIN with two bytes is queued at the third.  The first five
bytes then close the window, and the drain trims a byte off the buffer that has none left. -/
theorem receive_bugOn_edge : ∃ s, Fresh maxWindow (.opened 5) ∧
    Run (fun _ ev => ∃ env p, ev = .recv env p) (.start (.opened 5)) s ∧
    s.step (.arrive 1 [1,2,3,4,5] tcpAck (by decide)) = .error .bugOn :=
  ⟨(Sys.start (.opened 5)).next (.arrive 4 [4,5] (tcpFin ||| tcpAck) (by decide)),
    fresh_opened 5 (by decide),Run.next .refl _ ⟨_,_,rfl⟩ (by decide +kernel),
    Sys.step_of_aborts (by decide +kernel)⟩

/-! ### Empty buffers -/

/-- Every buffer for the reader takes a number, and nothing queued reaches past the window. -/
structure Tidy (c : Conn) (e : ℤ) (qs : List Item) : Prop where
  rxq : ∀ m ∈ c.rx.rxq, 0 < m.span
  inside : ∀ y ∈ qs, Item.last y ≤ e

/-- Accepted segments ahead of `rcv_nxt` end within the window. -/
def AheadInside (s : Sys) : Event → Prop
  | .recv _ p => p.Accepted s.conn → p.Ahead s.conn → p.Inside s.conn
  | _ => True

section Tidy

variable {Q : Content} {W n e n' e' : ℤ} {s s' : Sys} {qs qs' : List Item} {ev : Event}

theorem tidy_moves (h : Tidy s.conn e qs) (hinv : Inv Q W s.conn s.readers n e qs)
    (hev : AheadInside s ev) (hmove : Moves Q s n e qs ev s' n' e' qs')
    (hsyn : ∀ env p, ev = .recv env p → has p.flags tcpSyn = false) : Tidy s'.conn e' qs' := by
  have htake : ∀ len, Tidy (takeText s.conn len).1 (e + (takeLoop len s.conn.rx.rxq 0).readlen) qs := by
    intro len
    have hsplit := (takeLoop_of len s.conn.rx.rxq 0 (Nat.zero_le _)).split
    rw [takeText_fst]
    refine ⟨fun m hm => h.rxq m ?_,fun y hy => ?_⟩
    · rw [hsplit]
      exact mem_append_right _ hm
    · have := h.inside y hy
      omega
  cases hmove with
  | quiet hk => exact ⟨by rw [hk.rx]; exact h.rxq,h.inside⟩
  | failed hf =>
    refine ⟨fun m hm => h.rxq m ?_,by simp⟩
    rw [hf.rxq] at hm
    split at hm
    · exact hm
    · contradiction
  | synced hflag =>
    rw [hsyn _ _ rfl] at hflag
    contradiction
  | @taken env p c' a n' new qs' hseq hacc hbelow hbeyond ht =>
    have hat := hinv.ingress.at'
    have hx : n < a → a + p.segment.span ≤ e := fun hahead =>
      (p.inside_iff hat hacc.passes hseq hbelow hbeyond).mp
        (hev hacc ((p.ahead_iff hat hacc.passes hseq hbelow hbeyond).mpr hahead))
    refine ⟨fun m hm => ?_,fun y hy => ?_⟩
    · rw [ht.rxq] at hm
      rcases mem_append.mp hm with hm | hm
      · exact h.rxq m hm
      · exact ht.nonempty h.inside hx m hm
    · rcases ht.kept y hy with ⟨rfl,hahead⟩ | hy
      · exact hx hahead
      · exact h.inside y hy
  | shutdown =>
    have hrx : (tcpConnShutdownRx s.conn).1.rx = s.conn.rx := by
      rw [tcpConnShutdownRx]; split <;> rfl
    exact ⟨by rw [hrx]; exact h.rxq,h.inside⟩
  | refused => exact h
  | @read len => exact htake len
  | idle => exact h
  | @tryRead len => exact htake len
  | @finish i k m rest _ hq hk =>
    refine ⟨fun m' hm => ?_,h.inside⟩
    rcases mem_cons.mp hm with rfl | hm
    · have hlen := Mbuf.length_le_span
        ⟨m.data.drop k,m.segSeq + BitVec.ofNat 32 k,m.segEnd,m.flags⟩
      rw [length_drop] at hlen
      omega
    · exact h.rxq m' (by rw [hq]; exact mem_cons_of_mem _ hm)
  | tryFinish => exact h

end Tidy

/-! ### The end of the stream -/

/-- Packets with text only, reads of positive length, no failure and no shutdown. -/
def TextOnly (_ : Sys) : Event → Prop
  | .recv _ p => has p.flags (tcpSyn ||| tcpFin ||| tcpRst) = false
  | .read len => 0 < len
  | .tryRead _ | .tryFinish | .shutdown | .fail _ => False
  | _ => True

instance (s : Sys) : (ev : Event) → Decidable (TextOnly s ev)
  | .recv _ p => inferInstanceAs (Decidable (has p.flags (tcpSyn ||| tcpFin ||| tcpRst) = false))
  | .read len => inferInstanceAs (Decidable (0 < len))
  | .tryRead _ | .tryFinish | .shutdown | .fail _ => inferInstanceAs (Decidable False)
  | .finish _ | .send _ => inferInstanceAs (Decidable True)

def NoFin : Content := fun _ _ f => f = false

theorem noFin_clippable : Clippable NoFin := ⟨fun h _ => h,fun _ h => h⟩

theorem contiguous_noFin {n n' : ℤ} {ms : List Mbuf} (h : Contiguous NoFin n ms n') :
    ∀ m ∈ ms, m.isFin = false := by
  induction ms generalizing n with
  | nil => simp
  | cons m ms ih => exact forall_mem_cons.mpr ⟨h.1.2,ih h.2⟩

/-- A connection on which nothing has ended. -/
structure Open (s : Sys) (e : ℤ) (qs : List Item) : Prop where
  tidy : Tidy s.conn e qs
  noFin : ∀ m ∈ s.conn.rx.rxq, m.isFin = false
  rxClosed : s.conn.rxClosed = false
  returns : ∀ r ∈ s.returns, r.1 ≠ 0

section Open

variable {W n e n' e' : ℤ} {s s' : Sys} {qs qs' : List Item} {ev : Event}

theorem TextOnly.flags {env : Env} {p : Packet} (h : TextOnly s (.recv env p)) :
    has p.flags tcpSyn = false ∧ has p.flags tcpRst = false ∧ p.segment.isFin = false :=
  ⟨has_false_mono (by decide) h,has_false_mono (by decide) h,has_false_mono (by decide) h⟩

theorem open_moves (h : Open s e qs) (hinv : Inv NoFin W s.conn s.readers n e qs)
    (hev : TextOnly s ev) (hahead : AheadInside s ev)
    (hmove : Moves NoFin s n e qs ev s' n' e' qs') : Open s' e' qs' := by
  have hsyn : ∀ env p, ev = .recv env p → has p.flags tcpSyn = false := by
    rintro env p rfl
    exact hev.flags.1
  have htidy := tidy_moves h.tidy hinv hahead hmove hsyn
  cases hmove with
  | quiet hk => exact ⟨htidy,by rw [hk.rx]; exact h.noFin,hk.rxClosed.trans h.rxClosed,h.returns⟩
  | failed _ hcause =>
    rcases hcause with ⟨err,rfl⟩ | ⟨env,p,rfl,hflag⟩
    · exact hev.elim
    · obtain ⟨hs,hr,-⟩ := hev.flags
      rw [hs,hr] at hflag
      simp at hflag
  | synced hflag =>
    rw [hsyn _ _ rfl] at hflag
    contradiction
  | @taken env p c' a n' new qs' _ _ _ _ ht =>
    refine ⟨htidy,fun m hm => ?_,ht.keeps.rxClosed.trans h.rxClosed,h.returns⟩
    rw [ht.rxq] at hm
    rcases mem_append.mp hm with hm | hm
    · exact h.noFin m hm
    · exact contiguous_noFin ht.filled m hm
  | shutdown => exact hev.elim
  | refused hclosed =>
    rw [h.rxClosed] at hclosed
    contradiction
  | @read len _ _ hne =>
    have hsplit := (takeLoop_of len s.conn.rx.rxq 0 (Nat.zero_le _)).split
    have hpos : 0 < (takeLoop len s.conn.rx.rxq 0).readlen := by
      obtain ⟨m,rest,hq⟩ := exists_cons_of_ne_nil hne
      have hm : m ∈ s.conn.rx.rxq := by
        rw [hq]
        exact mem_cons_self
      have hspan := h.tidy.rxq m hm
      rw [Mbuf.span,h.noFin m hm] at hspan
      rw [hq]
      exact takeLoop_pos hev _ (length_pos_iff.mp (by simpa using hspan))
    have hsaw : (takeLoop len s.conn.rx.rxq 0).sawFin = false := by
      by_contra hsaw
      have hmem : ∃ m ∈ s.conn.rx.rxq, m.isFin = true := by
        rcases takeLoop_sawFin (Bool.not_eq_false _ ▸ hsaw) with ⟨m,hm,hf⟩ | ⟨m,rest,hleft,hf,-⟩
        · exact ⟨m,by rw [hsplit]; exact mem_append_left _ hm,hf⟩
        · exact ⟨m,by rw [hsplit,hleft]; simp,hf⟩
      obtain ⟨m,hm,hf⟩ := hmem
      rw [h.noFin m hm] at hf
      contradiction
    refine ⟨htidy,?_,?_,?_⟩
    · rw [takeText_fst]
      exact fun m hm => h.noFin m (by rw [hsplit]; exact mem_append_right _ hm)
    · rw [takeText_fst]
      simp [h.rxClosed,hsaw]
    · intro r hr
      rcases mem_append.mp hr with hr | hr
      · exact h.returns r hr
      · rw [mem_singleton.mp hr,takeText_snd]
        dsimp only
        omega
  | idle => exact hev.elim
  | tryRead => exact hev.elim
  | @finish i k m rest _ hq _ =>
    refine ⟨htidy,fun m' hm => ?_,h.rxClosed,h.returns⟩
    rcases mem_cons.mp hm with rfl | hm
    · exact h.noFin m (by rw [hq]; exact mem_cons_self)
    · exact h.noFin m' (by rw [hq]; exact mem_cons_of_mem _ hm)
  | tryFinish => exact hev.elim

end Open

/-- No read returns 0, if accepted segments ahead of `rcv_nxt` end within the window. -/
theorem read_not_ended {c : Conn} {s : Sys} (hc : Fresh maxWindow c) (hopen : c.rxClosed = false)
    (h : Run (fun s ev => TextOnly s ev ∧ AheadInside s ev) (.start c) s) :
    ∀ r ∈ s.returns, r.1 ≠ 0 := by
  have hstart : Open (.start c) (c.rx.rcvNxt.toNat + c.rx.rcvWnd.toNat) [] :=
    ⟨⟨by simp [Sys.start,hc.rxq],by simp⟩,by simp [Sys.start,hc.rxq],hopen,by simp [Sys.start]⟩
  obtain ⟨⟨n,e,qs,-,hend⟩,-⟩ := Run.positions (P:=fun s _ e qs => Open s e qs) noFin_clippable
    (Int.le_refl _)
    (fun s n e qs ev hs hev hinv => by
      cases ev with
      | recv env p =>
        intro a _ _ _ _
        obtain ⟨-,-,hnofin⟩ := hev.1.flags
        exact ⟨hnofin,by simp [hnofin]⟩
      | tryFinish => exact hev.1.elim
      | _ => trivial)
    (fun s n e qs ev s' n' e' qs' hs hev hinv hmove => open_moves hs hinv hev.1 hev.2 hmove)
    h (hc.inv (Int.le_refl _) (serial_self _).symm) hstart
  exact hend.returns

/-- Ten bytes in two halves, the second first, then a read. -/
theorem read_not_ended_reordered : ∃ s,
    Run (fun s ev => TextOnly s ev ∧ AheadInside s ev) (.start (.opened 10)) s ∧
    s.returns = [(10,[1,2,3,4,5,6,7,8,9,10])] ∧ ∀ r ∈ s.returns, r.1 ≠ 0 := by
  have h₁ : Run (fun s ev => TextOnly s ev ∧ AheadInside s ev) (.start (.opened 10)) _ :=
    Run.next .refl (.arrive 6 [6,7,8,9,10] tcpAck (by decide))
      ⟨by decide,fun _ _ => by decide⟩ (by decide +kernel)
  have h₂ := h₁.next (.arrive 1 [1,2,3,4,5] tcpAck (by decide))
    ⟨by decide,fun _ hahead => absurd hahead (by decide +kernel)⟩ (by decide +kernel)
  have h₃ := h₂.next (.read 20) ⟨by decide,trivial⟩ (by decide +kernel)
  exact ⟨_,h₃,by decide +kernel,read_not_ended (fresh_opened 10 (by decide)) rfl h₃⟩

/-- In a window of ten bytes, ten bytes from the sixth on are queued.  The first ten close the
window, what is drained is cut to nothing, and the read after the ten bytes returns 0. -/
theorem read_ended_early : ∃ s, Fresh maxWindow (.opened 10) ∧
    Run TextOnly (.start (.opened 10)) s ∧ ∃ r ∈ s.returns, r.1 = 0 := by
  have h₁ : Run TextOnly (.start (.opened 10)) _ :=
    Run.next .refl (.arrive 6 [6,7,8,9,10,11,12,13,14,15] tcpAck (by decide)) (by decide)
      (by decide +kernel)
  have h₂ := h₁.next (.arrive 1 [1,2,3,4,5,6,7,8,9,10] tcpAck (by decide)) (by decide)
    (by decide +kernel)
  have h₃ := h₂.next (.read 10) (by decide) (by decide +kernel)
  have h₄ := h₃.next (.read 5) (by decide) (by decide +kernel)
  exact ⟨_,fresh_opened 10 (by decide),h₄,(0,[]),by decide +kernel,rfl⟩

end Vessel.Tcp
