import Vessel.TcpRun

/-! What the receiver makes of a byte stream: text that stands at its place in the stream,
whatever way it comes, and the end of the stream. -/
namespace Vessel.Tcp

open Serial List

/-! ### Streams -/

/-- The bytes of the stream with indices from `i` to `i+k`. -/
def slice (stream : ℕ → UInt8) (i k : ℕ) : List UInt8 := (List.range' i k).map stream

section Slices

variable (stream : ℕ → UInt8) (i : ℕ) {j k : ℕ}

@[simp] theorem slice_length : (slice stream i k).length = k := by simp [slice]

theorem slice_append (j k : ℕ) :
    slice stream i j ++ slice stream (i+j) k = slice stream i (j+k) := by
  rw [slice,slice,← map_append,List.range'_append_1]
  rfl

theorem slice_drop (h : j ≤ k) : (slice stream i k).drop j = slice stream (i+j) (k-j) := by
  have hsplit := slice_append stream i j (k-j)
  rw [show j+(k-j) = k by omega] at hsplit
  rw [← hsplit,drop_left' (slice_length ..)]

theorem slice_take (h : j ≤ k) : (slice stream i k).take j = slice stream i j := by
  have hsplit := slice_append stream i j (k-j)
  rw [show j+(k-j) = k by omega] at hsplit
  rw [← hsplit,take_left' (slice_length ..)]

end Slices

/-- The bytes `d` at position `a` are those of the stream that begins at `base`.  If the
stream has an end, nothing comes after it, and only there a FIN. -/
structure OnStream (stream : ℕ → UInt8) (base : ℤ) (F : Option ℕ) (a : ℤ) (d : List UInt8)
    (f : Bool) : Prop where
  start : base ≤ a
  bytes : d = slice stream (a-base).toNat d.length
  fin : f = true → F = some ((a-base).toNat + d.length)
  within : ∀ L, F = some L → (a-base).toNat + d.length ≤ L

section Stream

variable {stream : ℕ → UInt8} {base : ℤ} {F : Option ℕ}

theorem onStream_clippable : Clippable (OnStream stream base F) where
  drop := by
    intro a d f k h hk
    have hstart := h.start
    have hidx : (a+k-base).toNat = (a-base).toNat + k := by omega
    refine ⟨by omega,?_,fun hf => ?_,fun L hL => ?_⟩
    · rw [hidx,length_drop]
      conv_lhs => rw [h.bytes]
      exact slice_drop stream _ hk
    · rw [h.fin hf,hidx,length_drop]
      congr 1
      omega
    · have := h.within L hL
      rw [hidx,length_drop]
      omega
  take := by
    intro a d k h
    have hmin : min k d.length ≤ d.length := Nat.min_le_right ..
    refine ⟨h.start,?_,by simp,fun L hL => ?_⟩
    · rw [length_take]
      conv_lhs => rw [take_eq_take_min,h.bytes,slice_length]
      exact slice_take stream _ hmin
    · have := h.within L hL
      rw [length_take]
      omega

theorem contiguous_after_fin {m : Mbuf} {ms : List Mbuf} {n n' : ℤ}
    (h : Contiguous (OnStream stream base F) n (m::ms) n') (hf : m.isFin = true) : ms = [] := by
  obtain ⟨⟨-,hq⟩,hrest⟩ := h
  have hstart := hq.start
  have hspan : m.span = m.data.length + if m.isFin then 1 else 0 := rfl
  rw [hf,if_pos rfl] at hspan
  cases ms with
  | nil => rfl
  | cons m' ms' =>
    obtain ⟨⟨-,hq'⟩,-⟩ := hrest
    have := hq'.within _ (hq.fin hf)
    omega

theorem contiguous_fin_last {ms : List Mbuf} {n n' : ℤ}
    (h : Contiguous (OnStream stream base F) n ms n') :
    ms.Pairwise fun m _ => m.isFin = false := by
  induction ms generalizing n with
  | nil => exact .nil
  | cons m ms ih =>
    refine pairwise_cons.mpr ⟨fun m' hm' => ?_,ih h.2⟩
    by_contra hf
    rw [contiguous_after_fin h (Bool.not_eq_false _ ▸ hf)] at hm'
    contradiction

theorem contiguous_past_end {ms : List Mbuf} {n n' : ℤ} {k : ℕ}
    (h : Contiguous (OnStream stream base F) n ms n') (hF : F = some k) (hn : n = base + k + 1) :
    ms = [] := by
  cases ms with
  | nil => rfl
  | cons m ms =>
    have := h.1.2.within _ hF
    omega

/-- Text that continues the stream at index `k`: its bytes come next, and only with the end
of the stream a FIN. -/
theorem contiguous_stream {ms : List Mbuf} {n n' : ℤ} {k : ℕ}
    (h : Contiguous (OnStream stream base F) n ms n') (hn : n = base + k) :
    ms.flatMap Mbuf.data = slice stream k (ms.flatMap Mbuf.data).length ∧
      (∀ L, F = some L → k ≤ L → k + (ms.flatMap Mbuf.data).length ≤ L) ∧
      (ms.any Mbuf.isFin = false → n' = n + (ms.flatMap Mbuf.data).length) ∧
      (ms.any Mbuf.isFin = true → F = some (k + (ms.flatMap Mbuf.data).length) ∧
        n' = n + (ms.flatMap Mbuf.data).length + 1) := by
  induction ms generalizing n k with
  | nil =>
    obtain rfl : n = n' := h
    simp [slice]
  | cons m ms ih =>
    have hlast := contiguous_after_fin h
    obtain ⟨⟨-,hq⟩,hrest⟩ := h
    have hidx : (n-base).toNat = k := by omega
    have hbytes := hq.bytes
    rw [hidx] at hbytes
    have hspan : m.span = m.data.length + if m.isFin then 1 else 0 := rfl
    rw [flatMap_cons,length_append,any_cons]
    cases hf : m.isFin with
    | false =>
      simp only [hf,Bool.false_eq_true,if_false] at hspan
      obtain ⟨hb,hwithin,hno,hyes⟩ := ih (k:=k+m.data.length) hrest (by omega)
      refine ⟨?_,fun L hL hk => ?_,fun hany => ?_,fun hany => ?_⟩
      · rw [← slice_append,← hbytes,← hb]
      · have := hq.within L hL
        have := hwithin L hL (by omega)
        omega
      · rw [hno (by simpa using hany)]
        omega
      · obtain ⟨hF,hn'⟩ := hyes (by simpa using hany)
        exact ⟨by rw [hF,Nat.add_assoc],by omega⟩
    | true =>
      simp only [hf,if_true] at hspan
      obtain rfl := hlast hf
      obtain rfl : n + m.span = n' := hrest
      have hF := hq.fin hf
      rw [hidx] at hF
      simp only [flatMap_nil,length_nil,Nat.add_zero]
      refine ⟨?_,fun L hL _ => ?_,by simp,fun _ => ⟨hF,by omega⟩⟩
      · simpa using hbytes
      · rw [hF] at hL
        exact Nat.le_of_eq (Option.some.inj hL)

/-- A segment of the stream: its text begins at an index `i` that is within `2^31` of
`rcv_nxt`, and it carries a FIN only at the end. -/
structure Carries (stream : ℕ → UInt8) (F : Option ℕ) (s : Sys) (p : Packet) : Prop where
  flags : has p.flags (tcpSyn ||| tcpRst) = false
  text : ∃ i : ℕ, p.seq = s.conn.irs + 1 + BitVec.ofNat 32 i ∧
    i ≤ s.log.length + 2^31 ∧ s.log.length ≤ i + 2^31 ∧
    p.mbuf.data = slice stream i p.mbuf.data.length ∧
    (p.mbuf.isFin = true → F = some (i + p.mbuf.data.length)) ∧
    ∀ L, F = some L → i + p.mbuf.data.length ≤ L

/-- What was appended is the stream up to `n`. -/
structure StreamInv (stream : ℕ → UInt8) (base : ℤ) (F : Option ℕ) (s : Sys) (n : ℤ) : Prop where
  irs : s.conn.irs + 1 = serial base
  log : s.log = slice stream 0 s.log.length
  within : ∀ L, F = some L → s.log.length ≤ L
  at' : n = base + s.log.length ∨ F = some s.log.length ∧ n = base + s.log.length + 1

theorem Carries.no_syn {s : Sys} {p : Packet} (h : Carries stream F s p) :
    has p.flags tcpSyn = false ∧ has p.flags tcpRst = false :=
  ⟨has_false_mono (by decide) h.flags,has_false_mono (by decide) h.flags⟩

/-- An accepted segment stands at its own place in the stream. -/
theorem Carries.brings {s : Sys} {p : Packet} {n e : ℤ} (h : Carries stream F s p)
    (hs : StreamInv stream base F s n) (hat : s.conn.rx.At n e)
    (hfin : ∀ a, p.seq = serial a → a < e → n < a + p.segment.span → p.Accepted s.conn →
      p.segment.isFin = true → a + p.segment.span ≤ e) :
    p.Brings (OnStream stream base F) s.conn n e := by
  intro a ha hbelow hbeyond hacc
  obtain ⟨i,hi,hlo,hhi,hbytes,hend,hwithin⟩ := h.text
  have hplace : a = base + i := by
    have hb := hat.bounded
    have hspan := hacc.passes.spanWord_eq.2
    unfold maxWindow at hb
    unfold maxSpan at hspan
    have heq : serial a = serial (base + i) := by
      rw [← serial_add,← hs.irs,serial_natCast,← hi,ha]
    rcases hs.at' with hn | ⟨-,hn⟩
    · exact serial_inj heq (by omega) (by omega)
    · exact serial_inj heq (by omega) (by omega)
  have hidx : (a-base).toNat = i := by omega
  refine ⟨⟨by omega,?_,fun hf => ?_,fun L hL => ?_⟩,fun hf => Or.inl (hfin a ha hbelow hbeyond hacc hf)⟩
  · rw [hidx]
    exact hbytes
  · rw [hidx]
    exact hend hf
  · rw [hidx]
    exact hwithin L hL

theorem streamInv_moves {s s' : Sys} {n e n' e' : ℤ} {qs qs' : List Item} {ev : Event}
    (h : StreamInv stream base F s n) (hsyn : ∀ env p, ev = .recv env p → has p.flags tcpSyn = false)
    (hmove : Moves (OnStream stream base F) s n e qs ev s' n' e' qs') :
    StreamInv stream base F s' n' := by
  have hsame : ∀ {t : Sys}, t.conn.irs = s.conn.irs → t.log = s.log → StreamInv stream base F t n := by
    intro t hirs hlog
    exact ⟨hirs ▸ h.irs,by rw [hlog]; exact h.log,by rw [hlog]; exact h.within,
      by rw [hlog]; exact h.at'⟩
  cases hmove with
  | quiet hk => exact hsame hk.irs rfl
  | failed hf => exact hsame hf.irs rfl
  | synced hflag =>
    rw [hsyn _ _ rfl] at hflag
    contradiction
  | @taken env p c' a n' new qs' _ _ _ _ ht =>
    have hirs : c'.irs = s.conn.irs := ht.keeps.irs
    rcases h.at' with hn | ⟨hF,hn⟩
    · obtain ⟨hbytes,hwithin,hno,hyes⟩ := contiguous_stream ht.filled hn
      refine ⟨by rw [← h.irs]; exact congrArg (· + 1) hirs,?_,fun L hL => ?_,?_⟩
      · change s.log ++ new.flatMap Mbuf.data = slice stream 0 (s.log ++ new.flatMap Mbuf.data).length
        rw [length_append,← slice_append,← h.log,Nat.zero_add,← hbytes]
      · change (s.log ++ new.flatMap Mbuf.data).length ≤ L
        rw [length_append]
        exact hwithin L hL (h.within L hL)
      · change n' = base + (s.log ++ new.flatMap Mbuf.data).length ∨
          F = some (s.log ++ new.flatMap Mbuf.data).length ∧ _
        rw [length_append]
        cases hany : new.any Mbuf.isFin with
        | false =>
          have := hno hany
          exact Or.inl (by omega)
        | true =>
          obtain ⟨hF,hn'⟩ := hyes hany
          exact Or.inr ⟨hF,by omega⟩
    · -- after the FIN nothing is appended
      have hnew := contiguous_past_end ht.filled hF hn
      subst hnew
      obtain rfl : n = n' := ht.filled
      exact hsame hirs (by simp)
  | shutdown =>
    refine hsame ?_ rfl
    rw [tcpConnShutdownRx]
    split <;> rfl
  | refused => exact hsame rfl rfl
  | read =>
    refine hsame ?_ rfl
    rw [takeText_fst]
  | idle => exact hsame rfl rfl
  | tryRead =>
    refine hsame ?_ rfl
    rw [takeText_fst]
  | finish => exact hsame rfl rfl
  | tryFinish => exact hsame rfl rfl

end Stream

/-! ### Reassembly -/

/-- A segment with nothing but text of the stream. -/
structure DataSegment (stream : ℕ → UInt8) (s : Sys) (p : Packet) : Prop where
  flags : has p.flags (tcpSyn ||| tcpFin ||| tcpRst ||| tcpUrg) = false
  text : ∃ i : ℕ, p.seq = s.conn.irs + 1 + BitVec.ofNat 32 i ∧
    i ≤ s.log.length + 2^31 ∧ s.log.length ≤ i + 2^31 ∧
    p.mbuf.data = slice stream i p.mbuf.data.length

/-- All packets are such segments; any read, and anything else, may happen between them. -/
def DataEvent (stream : ℕ → UInt8) (s : Sys) : Event → Prop
  | .recv _ p => DataSegment stream s p
  | _ => True

/-- `tcp_try_read` does not end while another read has `rx_exclusive`. -/
def OwnFlag (s : Sys) : Event → Prop
  | .tryFinish => s.conn.rxExclusive = false
  | _ => True

theorem DataSegment.carries {stream : ℕ → UInt8} {s : Sys} {p : Packet}
    (h : DataSegment stream s p) : Carries stream none s p ∧ p.segment.isFin = false := by
  have hflags : has p.flags (tcpSyn ||| tcpRst) = false := has_false_mono (by decide) h.flags
  have hfin : has p.flags tcpFin = false := has_false_mono (by decide) h.flags
  have hfin' : p.mbuf.isFin = false := hfin
  obtain ⟨i,hi,hlo,hhi,hbytes⟩ := h.text
  exact ⟨⟨hflags,i,hi,hlo,hhi,hbytes,by simp [hfin'],by simp⟩,hfin⟩

/-- What was ever appended to `rxq` is the stream up to `rcv_nxt`, and no section aborts, as
long as `tcp_try_read` leaves the flag of other reads alone. -/
theorem reassembly_exact (stream : ℕ → UInt8) {c : Conn} {s : Sys} (hc : Fresh maxWindow c)
    (hirs : c.rx.rcvNxt = c.irs + 1)
    (h : Run (fun s ev => DataEvent stream s ev ∧ OwnFlag s ev) (.start c) s) :
    s.log = slice stream 0 s.log.length ∧
      s.conn.rx.rcvNxt - s.conn.irs - 1 = BitVec.ofNat 32 s.log.length ∧
      ∀ ev, DataEvent stream s ev → OwnFlag s ev → ∀ a, s.step ev ≠ .error a := by
  let base : ℤ := c.rx.rcvNxt.toNat
  have hbase : c.rx.rcvNxt = serial base := (serial_self _).symm
  have hstart : StreamInv stream base none (.start c) base :=
    ⟨hirs.symm.trans hbase,by simp [Sys.start,slice],by simp,Or.inl (by simp [Sys.start])⟩
  have hnosyn : ∀ {s ev}, DataEvent stream s ev → ∀ env p, ev = .recv env p →
      has p.flags tcpSyn = false := by
    rintro s ev hev env p rfl
    exact (DataSegment.carries hev).1.no_syn.1
  obtain ⟨⟨n,e,qs,hinv,hs⟩,habort⟩ := Run.positions
    (P:=fun s n _ _ => StreamInv stream base none s n) onStream_clippable (Int.le_refl _)
    (fun s n e qs ev hs hev hinv => by
      cases ev with
      | recv env p =>
        obtain ⟨hcarries,hnofin⟩ := DataSegment.carries hev.1
        exact hcarries.brings hs hinv.ingress.at' fun _ _ _ _ _ hf => by simp [hnofin] at hf
      | tryFinish => exact hev.2
      | _ => trivial)
    (fun s n e qs ev s' n' e' qs' hs hev _ hmove => streamInv_moves hs (hnosyn hev.1) hmove)
    h (hc.inv (Int.le_refl _) hbase) hstart
  refine ⟨hs.log,?_,fun ev hev hown a ha => ?_⟩
  · have hn : n = base + s.log.length := by
      rcases hs.at' with hn | ⟨hnone,-⟩
      · exact hn
      · contradiction
    rw [hinv.ingress.at'.nxt,BitVec.sub_sub,hs.irs,serial_sub,hn,
      show base + s.log.length - base = s.log.length by omega,serial_natCast]
  · obtain ⟨-,env,p,rfl,hsyn⟩ := habort ev ⟨hev,hown⟩ a ha
    rw [hnosyn hev env p rfl] at hsyn
    contradiction

/-- The receipt of `len` bytes of the stream that counts up, from index `i` on. -/
def counted (i : ℕ) (len : Fin 1461) (flags : Flags) : Event :=
  .arrive (BitVec.ofNat 32 (i+1)) (slice UInt8.ofNat i len) flags (by rw [slice_length]; omega)

theorem counted_seq {irs : BitVec 32} (hirs : irs = 0) (i : ℕ) :
    BitVec.ofNat 32 (i+1) = irs + 1 + BitVec.ofNat 32 i := by
  rw [hirs,BitVec.ofNat_add,BitVec.add_comm]
  rfl

theorem counted_data {s : Sys} {i : ℕ} {len : Fin 1461} {flags : Flags}
    (hflags : has flags (tcpSyn ||| tcpFin ||| tcpRst ||| tcpUrg) = false) (hirs : s.conn.irs = 0)
    (hi : i ≤ 2^31) (hlog : s.log.length ≤ 2^31) : DataEvent UInt8.ofNat s (counted i len flags) := by
  refine ⟨hflags,i,counted_seq hirs i,by omega,by omega,?_⟩
  change slice UInt8.ofNat i len = slice UInt8.ofNat i (slice UInt8.ofNat i len).length
  rw [slice_length]

/-- The second half of 20 bytes comes first, and a read takes 15 of them. -/
theorem reassembly_exact_reordered :
    ((((Sys.start (.opened 100)).next (counted 10 10 tcpAck)).next (counted 0 10 tcpAck)).next
      (.read 15)).log = slice UInt8.ofNat 0 20 := by
  let s₁ := (Sys.start (.opened 100)).next (counted 10 10 tcpAck)
  let s₂ := s₁.next (counted 0 10 tcpAck)
  have h₁ : Run (fun s ev => DataEvent UInt8.ofNat s ev ∧ OwnFlag s ev) (.start (.opened 100)) s₁ :=
    Run.next .refl _ ⟨counted_data (by decide) rfl (by decide) (by decide),trivial⟩
      (by decide +kernel)
  have h₂ := h₁.next (counted 0 10 tcpAck)
    ⟨counted_data (by decide) (by decide +kernel) (by decide) (by decide +kernel),trivial⟩
    (by decide +kernel)
  have h₃ := h₂.next (.read 15) ⟨trivial,trivial⟩ (by decide +kernel)
  have hlog := (reassembly_exact UInt8.ofNat (fresh_opened 100 (by decide)) rfl h₃).1
  have hlen : (s₂.next (.read 15)).log.length = 20 := by decide +kernel
  rw [hlen] at hlog
  exact hlog

/-- A `tcp_try_read` that took a whole buffer ends while another read is inside the next one.
A third read then gets into the same buffer, and the second pulls off more than is left. -/
theorem reassembly_stolen_flag : ∃ s, Fresh maxWindow (.opened 100) ∧
    Run (DataEvent UInt8.ofNat) (.start (.opened 100)) s ∧ s.step (.finish 0) = .error .bugOn := by
  let s₁ := (Sys.start (.opened 100)).next (counted 0 10 tcpAck)
  let s₂ := s₁.next (.tryRead 100)
  let s₃ := s₂.next (counted 10 10 tcpAck)
  let s₄ := s₃.next (.read 8)
  let s₅ := s₄.next .tryFinish
  let s₆ := s₅.next (.read 5)
  have h₁ : Run (DataEvent UInt8.ofNat) (.start (.opened 100)) s₁ :=
    Run.next .refl _ (counted_data (by decide) rfl (by decide) (by decide)) (by decide +kernel)
  have h₂ : Run (DataEvent UInt8.ofNat) (.start (.opened 100)) s₂ :=
    h₁.next _ trivial (by decide +kernel)
  have h₃ : Run (DataEvent UInt8.ofNat) (.start (.opened 100)) s₃ :=
    h₂.next _ (counted_data (by decide) (by decide +kernel) (by decide) (by decide +kernel))
      (by decide +kernel)
  have h₄ : Run (DataEvent UInt8.ofNat) (.start (.opened 100)) s₄ :=
    h₃.next _ trivial (by decide +kernel)
  have h₅ : Run (DataEvent UInt8.ofNat) (.start (.opened 100)) s₅ :=
    h₄.next _ trivial (by decide +kernel)
  have h₆ : Run (DataEvent UInt8.ofNat) (.start (.opened 100)) s₆ :=
    h₅.next _ trivial (by decide +kernel)
  exact ⟨s₆.next (.finish 1),fresh_opened 100 (by decide),h₆.next _ trivial (by decide +kernel),
    Sys.step_of_aborts (by decide +kernel)⟩

end Vessel.Tcp
