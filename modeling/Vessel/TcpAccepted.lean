import Vessel.TcpSend

/-! The bytes that writers are told were written, and the bytes that have gone to the network: the
buffer kept back in `tx_pending` is what is between them. -/
namespace Vessel.TcpSend

open Tcp Serial List

/-- The call that has `tx_exclusive`. -/
def Writer.call? : Writer → Option Call
  | .next k | .sending k _ _ _ | .finishing k => some k
  | .idle | .resending _ => none

/-- The bytes that the call has copied so far. -/
def Call.copied (k : Call) : List UInt8 := k.data.take k.done

/-- What finished calls reported, and what the present one has copied. -/
def Sys.accepted (s : Sys) : List UInt8 :=
  s.written++(s.writer.call?.map Call.copied).getD []

/-- `tcp_writev` finds no buffer after it has copied a part of one of its parts, and goes on with
the next part. -/
def gap (s : Sys) : Event → Bool
  | .round false =>
    match s.writer with
    | .sending k _ pos _ => s.conn.txPending.isNone && 0 < pos && !k.todo.isEmpty
    | _ => false
  | _ => false

/-- What is to be copied next follows what was copied last. -/
def Writer.Aligned : Writer → Prop
  | .next k => k.todo ≠ [] → k.winlen ≠ 0 → k.data.drop k.done = k.todo.flatten
  | .sending k rest pos _ => ∃ tail,k.data.drop k.done = rest++tail ∧
      (k.todo ≠ [] → pos+rest.length < k.winlen → tail = k.todo.flatten)
  | _ => True

/-- In an open connection all bytes copied are with the network, but for those kept back, of which
there are some. -/
structure Accepted (s : Sys) : Prop where
  aligned : s.writer.Aligned
  stream : s.conn.state ≠ .closed → s.handed++pendingData s.conn = s.accepted
  pending : s.conn.state ≠ .closed → ∀ m ∈ s.conn.txPending,m.data ≠ []

variable {s t : Sys} {ev : Event} {c : Conn} {k : Call} {rest : List UInt8} {pos : ℕ}
  {push alloc : Bool}

theorem accepted_start (h : c.txPending = none) : Accepted (.start c) where
  aligned := trivial
  stream _ := by simp [Sys.start,Tcp.Sys.start,pendingData,h,Sys.accepted,Writer.call?]
  pending _ := by simp [Sys.start,Tcp.Sys.start,h]

/-! ### A closed connection stays closed -/

theorem closed_of_advances {env : Env} {c' : Conn} (h : Advances env c c') (hc : c.state = .closed) :
    c'.state = .closed := by
  obtain ⟨st,st',hs,hs',hend⟩ := h
  have hst : st = .closed := by
    rcases hs with rfl | ⟨hsyn,-⟩
    · exact hc
    · simp [hc] at hsyn
  have hst' : st' = .closed := by
    rcases hs' with rfl | ⟨-,rfl⟩
    · exact hst
    · rw [hst]; rfl
  rcases hend with hend | hend
  · exact hend.trans hst'
  · rw [hend,hst']; rfl

theorem closed_step (hs : s.conn.state = .closed) (ht : s.step ev = some t) :
    t.conn.state = .closed := by
  cases step_moves ht with
  | load | wait => exact hs
  | timeWaitOver => rfl
  | recv loaded received =>
    cases received with
    | goes goes => exact closed_of_advances goes.2 hs
    | failed flag state => exact state
    | syn waits => simp [hs] at waits
  | quiet net keeps sndWnd state => exact state.trans hs
  | write | writev | next | retransmit | resend => exact hs
  | round writer => exact (round_keeps ..).2.trans hs
  | finish writer finished | finishResend writer finished => exact finished.state.trans hs
  | shut free shut =>
    cases shut with
    | failed state => exact state
    | refused keeps sndWnd state => exact state.trans hs
    | queued sndNxt txPending txExclusive state =>
      rcases state with ⟨state,-⟩ | ⟨state,-⟩
      · exact state.trans hs
      · rw [state,hs]; rfl
  | abort state => exact state

theorem open_before (ht : s.step ev = some t) (h : t.conn.state ≠ .closed) :
    s.conn.state ≠ .closed :=
  fun hs => h (closed_step hs ht)

/-! ### Steps -/

theorem Accepted.move (h : Accepted s) (hstate : t.conn.state ≠ .closed → s.conn.state ≠ .closed)
    (haligned : t.writer.Aligned) (haccepted : t.accepted = s.accepted)
    (hpending : t.conn.state ≠ .closed → t.conn.txPending = s.conn.txPending)
    (hhanded : t.handed = s.handed) : Accepted t where
  aligned := haligned
  stream ht := by
    rw [haccepted,hhanded,pendingData,hpending ht]
    exact h.stream (hstate ht)
  pending ht := by
    rw [hpending ht]
    exact h.pending (hstate ht)

theorem Accepted.keep (h : Accepted s) (hstate : t.conn.state ≠ .closed → s.conn.state ≠ .closed)
    (hwriter : t.writer = s.writer) (hpending : t.conn.state ≠ .closed →
      t.conn.txPending = s.conn.txPending) (hhanded : t.handed = s.handed)
    (hwritten : t.written = s.written) : Accepted t := by
  refine h.move hstate (hwriter ▸ h.aligned) ?_ hpending hhanded
  rw [Sys.accepted,Sys.accepted,hwriter,hwritten]

theorem nextIov_aligned (h : (Writer.next k).Aligned) : k.nextIov.Aligned ∧
    k.nextIov.call?.map Call.copied = some k.copied := by
  rw [Call.nextIov]
  split
  · exact ⟨trivial,rfl⟩
  · rename_i iov more htodo
    split
    · exact ⟨trivial,rfl⟩
    · rename_i hwin
      have hdrop := h (by simp [htodo]) hwin
      rw [htodo,flatten_cons] at hdrop
      refine ⟨⟨iov.drop k.winlen++more.flatten,?_,fun _ hlt => ?_⟩,rfl⟩
      · rw [hdrop,← append_assoc,take_append_drop]
      · have hlen : iov.length ≤ k.winlen := by
          change 0+(iov.take k.winlen).length < k.winlen at hlt
          rw [length_take] at hlt
          omega
        rw [drop_of_length_le hlen,nil_append]

theorem Call.sent_call (k : Call) (pos : ℕ) :
    (k.sent pos).call?.map Call.copied = some k.copied := by
  rw [Call.sent]
  split <;> rfl

theorem Call.copied_add {tail : List UInt8} {n : ℕ} (h : k.data.drop k.done = rest++tail)
    (hn : n ≤ rest.length) : { k with done := k.done+n }.copied = k.copied++rest.take n := by
  rw [Call.copied,Call.copied,take_add,h,take_append_of_le_length hn]

theorem Call.drop_add {tail : List UInt8} {n : ℕ} (h : k.data.drop k.done = rest++tail)
    (hn : n ≤ rest.length) : k.data.drop (k.done+n) = rest.drop n++tail := by
  rw [← drop_drop,h,drop_append_of_le_length hn]

/-- A round copies the next `n` bytes, or the call is over with what it has. -/
inductive Copies (s : Sys) (k : Call) (rest : List UInt8) (pos : ℕ) (push alloc : Bool) : Sys → Prop
  | failed (pending : s.conn.txPending = none) (full : alloc = false) :
    Copies s k rest pos push alloc { s with writer := k.sent pos }
  | copied {c : Conn} {m : Mbuf} {n : ℕ} (filled : Filled s.conn rest c m n) :
    Copies s k rest pos push alloc { s with
      conn := txEmit c m (rest.drop n) push
      handed := if txHolds c m (rest.drop n) push then s.handed else s.handed++m.data
      writer := if (rest.drop n).isEmpty then { k with done := k.done+n }.sent (pos+n)
        else .sending { k with done := k.done+n } (rest.drop n) (pos+n) push }

theorem round_copies (s : Sys) (k : Call) (rest : List UInt8) (pos : ℕ) (push alloc : Bool) :
    Copies s k rest pos push alloc (s.round k rest pos push alloc) := by
  rw [Sys.round]
  split
  · rename_i hnone
    obtain ⟨hpending,halloc⟩ := txFill_eq_none.mp hnone
    exact .failed hpending halloc
  · rename_i c m rest' hfill
    obtain ⟨n,rfl,hfilled⟩ := txFill_filled hfill
    have hn : rest.length-(rest.drop n).length = n := by
      rw [length_drop]
      have := hfilled.fits
      omega
    simp only [hn]
    exact .copied hfilled

theorem sent_aligned
    (h : 0 < pos → k.todo ≠ [] → pos < k.winlen → k.data.drop k.done = k.todo.flatten) :
    (k.sent pos).Aligned := by
  rw [Call.sent]
  split
  · rename_i hpos
    rw [Bool.and_eq_true,decide_eq_true_eq] at hpos
    exact fun htodo hwin => h hpos.2 htodo (by dsimp only at hwin; omega)
  · trivial

theorem emit_stream {c c' : Conn} {m : Mbuf} {n : ℕ} (hfilled : Filled c rest c' m n)
    (rest' handed : List UInt8) :
    (if txHolds c' m rest' push then handed else handed++m.data)++
      pendingData (txEmit c' m rest' push) = handed++pendingData c++rest.take n := by
  rw [txEmit,append_assoc,← hfilled.data]
  split
  · simp [pendingData]
  · simp [pendingData,hfilled.conn]

theorem emit_pending {c c' : Conn} {m : Mbuf} {n : ℕ} (hfilled : Filled c rest c' m n)
    (rest' : List UInt8) : ∀ m' ∈ (txEmit c' m rest' push).txPending,m'.data ≠ [] := by
  intro m' hm'
  rw [txEmit] at hm'
  split at hm'
  · rename_i hholds
    obtain rfl : m = m' := Option.some.inj hm'
    simp only [txHolds,Bool.and_eq_true,decide_eq_true_eq] at hholds
    intro hnil
    simp [hnil] at hholds
  · simp [hfilled.conn] at hm'

theorem round_accepted (h : Accepted s) (hw : s.writer = .sending k rest pos push)
    (hgap : gap s (.round alloc) = false) : Accepted (s.round k rest pos push alloc) := by
  have haligned := h.aligned
  rw [hw] at haligned
  obtain ⟨tail,hdrop,htail⟩ := haligned
  have haccepted : s.accepted = s.written++k.copied := by rw [Sys.accepted,hw]; rfl
  have hround := round_copies s k rest pos push alloc
  generalize s.round k rest pos push alloc = t at hround ⊢
  cases hround with
  | failed pending full =>
    refine ⟨sent_aligned fun hpos htodo _ => ?_,fun ht => ?_,h.pending⟩
    · simp [gap,full,hw,pending,hpos,htodo] at hgap
    · rw [Sys.accepted,Call.sent_call,Option.getD_some,← haccepted]
      exact h.stream ht
  | @copied c m n filled =>
    have hstate : (txEmit c m (rest.drop n) push).state = s.conn.state := by
      rw [(txEmit_keeps ..).2,filled.conn]
    refine ⟨?_,fun ht => ?_,fun _ => emit_pending filled _⟩
    · change (ite _ _ _ : Writer).Aligned
      split
      · rename_i hempty
        have hn : n = rest.length := by
          have := filled.fits
          have := drop_eq_nil_iff.mp (isEmpty_iff.mp hempty)
          omega
        refine sent_aligned fun _ htodo hpos => ?_
        dsimp only at hpos
        rw [Call.drop_add hdrop filled.fits,hn,drop_length,nil_append]
        exact htail htodo (by omega)
      · refine ⟨tail,Call.drop_add hdrop filled.fits,fun htodo hlt => htail htodo ?_⟩
        dsimp only at hlt
        rw [length_drop] at hlt
        have := filled.fits
        omega
    · change ite _ _ _++pendingData _ = s.written++((ite _ _ _ : Writer).call?.map Call.copied).getD []
      rw [emit_stream filled,h.stream (by rwa [← hstate]),haccepted,append_assoc,
        ← Call.copied_add hdrop filled.fits]
      split
      · rw [Call.sent_call]
        rfl
      · rfl

theorem step_accepted (hex : Exclusive s) (h : Accepted s) (hgap : gap s ev = false)
    (ht : s.step ev = some t) : Accepted t := by
  have hopen := open_before ht
  cases step_moves ht with
  | load | wait => exact h.keep id rfl (fun _ => rfl) rfl rfl
  | recv loaded received =>
    cases received with
    | goes goes => exact h.keep hopen rfl (fun _ => goes.1.txPending) rfl rfl
    | failed flag state => exact h.keep hopen rfl (fun hs => absurd state hs) rfl rfl
    | syn waits state exclusive pending => exact h.keep hopen rfl (fun _ => pending) rfl rfl
  | quiet net keeps sndWnd state => exact h.keep hopen rfl (fun _ => keeps.txPending) rfl rfl
  | @write _ wake data ready opened =>
    have hidle := hex (free_of_ready ready opened).1
    refine h.move id ⟨data.drop (s.call false wake [data]).winlen,?_,fun htodo => absurd rfl htodo⟩
      ?_ (fun _ => rfl) rfl
    · change [data].flatten.drop 0 = _
      rw [flatten_singleton,drop_zero,take_append_drop]
    · rw [Sys.accepted,Sys.accepted,hidle]
      rfl
  | writev ready opened =>
    have hidle := hex (free_of_ready ready opened).1
    refine h.move id (fun _ _ => rfl) ?_ (fun _ => rfl) rfl
    rw [Sys.accepted,Sys.accepted,hidle]
    rfl
  | next writer =>
    have haligned := h.aligned
    rw [writer] at haligned
    obtain ⟨haligned,hcall⟩ := nextIov_aligned haligned
    refine h.move id haligned ?_ (fun _ => rfl) rfl
    rw [Sys.accepted,hcall,Sys.accepted,writer]
    rfl
  | round writer => exact round_accepted h writer hgap
  | finish writer finished =>
    refine h.move hopen trivial ?_ (fun hs => finished.txPending (hopen hs)) rfl
    rw [Sys.accepted,Sys.accepted,writer]
    exact append_nil _
  | finishResend writer finished =>
    refine h.move hopen trivial ?_ (fun hs => finished.txPending (hopen hs)) rfl
    rw [Sys.accepted,Sys.accepted,writer]
    rfl
  | retransmit free =>
    refine h.move id trivial ?_ (fun _ => rfl) rfl
    rw [Sys.accepted,Sys.accepted,hex free]
    rfl
  | resend writer buffer resent =>
    refine h.move id trivial ?_ (fun _ => rfl) rfl
    rw [Sys.accepted,Sys.accepted,writer]
    rfl
  | shut free shut =>
    cases shut with
    | failed state => exact h.keep hopen rfl (fun hs => absurd state hs) rfl rfl
    | refused keeps => exact h.keep hopen rfl (fun _ => keeps.txPending) rfl rfl
    | queued sndNxt txPending => exact h.keep hopen rfl (fun _ => txPending) rfl rfl
  | timeWaitOver => exact h.keep hopen rfl (fun hs => absurd rfl hs) rfl rfl
  | abort state => exact h.keep hopen rfl (fun hs => absurd state hs) rfl rfl

/-! ### Runs -/

theorem run_accepted {es : List Event} (hc : c.txPending = none)
    (hgap : Machine.Along Sys.step (fun s ev => gap s ev = false) (.start c) es)
    (hrun : Machine.run Sys.step (.start c) es = some s) : Exclusive s ∧ Accepted s := by
  refine Machine.run_invariant (P:=fun s => Exclusive s ∧ Accepted s) (fun h hg hstep => ?_)
    ⟨fun _ => rfl,accepted_start hc⟩ hgap hrun
  exact ⟨step_exclusive h.1 hstep,step_accepted h.1 h.2 hg hstep⟩

/-- Only a call that shuts down sends a FIN, and it waits for the writers. -/
theorem free_of_fin (ht : s.step ev = some t) (hfin : t.fins ≠ s.fins) :
    s.conn.txExclusive = false := by
  cases step_moves ht with
  | shut free => exact free
  | round writer => exact absurd (round_fins ..) hfin
  | _ => exact absurd rfl hfin

/-- When the FIN is sent, all that was reported as written is with the network if and only if no
buffer is kept back. -/
theorem written_before_fin_iff {es : List Event} (hc : c.txPending = none)
    (hgap : Machine.Along Sys.step (fun s ev => gap s ev = false) (.start c) es)
    (hrun : Machine.run Sys.step (.start c) es = some s) (hopen : s.conn.state ≠ .closed)
    (ht : s.step ev = some t) (hfin : t.fins ≠ s.fins) :
    s.handed = s.written ↔ s.conn.txPending = none := by
  obtain ⟨hex,haccepted⟩ := run_accepted hc hgap hrun
  have hstream := haccepted.stream hopen
  rw [Sys.accepted,hex (free_of_fin ht hfin)] at hstream
  have hwritten : s.handed++pendingData s.conn = s.written := hstream.trans (append_nil _)
  rw [← hwritten,self_eq_append_right,pendingData]
  cases hp : s.conn.txPending with
  | none => simp
  | some m => simpa using haccepted.pending hopen m hp

/-- Two parts that the window has room for are pushed with the second. -/
theorem written_before_fin_iff_pushed : ∃ s t,
    Machine.run Sys.step (.start (.opened 1000)) [.writev [List.replicate 30 0,[1]],.next,
        .round true,.next,.round true,.next,.finish] = some s ∧
      s.step (.shutdown ⟨false,false⟩ .sent 0) = some t ∧ s.written.length = 31 ∧
      s.handed = s.written := by
  obtain ⟨hgap,s,hs,t,ht,hopen,hfin,hlen,hnone⟩ :
      Machine.Along Sys.step (fun s ev => gap s ev = false) (.start (.opened 1000))
        [.writev [List.replicate 30 0,[1]],.next,.round true,.next,.round true,.next,.finish] ∧
      ∃ s ∈ Machine.run Sys.step (.start (.opened 1000)) [.writev [List.replicate 30 0,[1]],.next,
        .round true,.next,.round true,.next,.finish],
        ∃ t ∈ s.step (.shutdown ⟨false,false⟩ .sent 0),s.conn.state ≠ .closed ∧ t.fins ≠ s.fins ∧
          s.written.length = 31 ∧ s.conn.txPending.isNone := by
    decide +kernel
  exact ⟨s,t,hs,ht,hlen,(written_before_fin_iff rfl hgap hs hopen ht hfin).mpr
    (Option.isNone_iff_eq_none.mp hnone)⟩

/-- `tcp_writev` reports the 30 bytes of its first part, which it keeps back, and stops at the
empty second part; the FIN goes out after them, as number 31, with none of them sent. -/
theorem written_after_fin : ∃ s ∈ Machine.run Sys.step (.start (.opened 1000))
    [.writev [List.replicate 30 0,[],[1]],.next,.round true,.next,.round true,.finish],
      ∃ t ∈ s.step (.shutdown ⟨false,false⟩ .sent 0),s.written = List.replicate 30 0 ∧
        t.fins = [31] ∧ t.conn.txClosed ∧ t.handed = [] := by
  decide +kernel

end Vessel.TcpSend
