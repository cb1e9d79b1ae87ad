import Vessel.Machine
import Vessel.TcpRefs

/-! Who drops which reference to a TCP connection, over whole runs. -/
namespace Vessel.TcpRefs

open Tcp

def Job.live (j : Job) : Bool := j.place ≠ .over

@[grind] def User.count : User → ℕ
  | .gone => 0
  | _ => 1

/-- Those who hold a reference. -/
@[grind =] def Refs.holders (r : Refs) : ℕ :=
  r.user.count+(r.smGets-r.smDrops)+r.jobs.countP Job.live

/-- The reference of the state machine is dropped once when the connection is closed, where a
handler past `TIME_WAIT` may still be about to; every retransmission has dropped its own once when
it is over; and the connection was destroyed once if nobody holds a reference, and not otherwise. -/
structure Disciplined (s : Sys) : Prop where
  once : s.refs.smGets ≤ 1
  stateMachine : s.refs.smDrops+s.refs.owed = if s.conn.state = .closed then s.refs.smGets else 0
  retransmits : ∀ j ∈ s.refs.jobs, j.drops = if j.place = .over then 1 else 0
  destroyed : s.refs.kref.released = if s.refs.holders = 0 then 1 else 0

/-- The steps that keep the discipline: an error reaches only a connection that is not closed, a
thread for a retransmission is spawned, `tcp_retransmit_nowait` finds no other writer, a connection
that `tcp_dial` or `tcp_qclose` destroys has no other reference, and `tcp_close` can send its FIN
if the connection was closed while it waited. -/
def Meets (s : Sys) : Event → Prop
  | .error _ => s.conn.state ≠ .closed
  | .job k go _ => ∀ j ∈ s.refs.jobs[k]?, (j.place = .taken false → go = true) ∧
      (j.place = .taken true → s.conn.txExclusive = true → s.conn.state = .closed)
  | .dialReturns => s.conn.txClosed = true → ∀ j ∈ s.refs.jobs, j.place = .over
  | .qclose => s.conn.state = .closed ∧ ∀ j ∈ s.refs.jobs, j.place = .over
  | .closeGo tx _ => s.conn.state = .closed → tx = .sent
  | _ => True

instance (s : Sys) : (ev : Event) → Decidable (Meets s ev)
  | .error _ => inferInstanceAs (Decidable (s.conn.state ≠ .closed))
  | .job k go _ => inferInstanceAs (Decidable (∀ j ∈ s.refs.jobs[k]?,
      (j.place = .taken false → go = true) ∧
      (j.place = .taken true → s.conn.txExclusive = true → s.conn.state = .closed)))
  | .dialReturns => inferInstanceAs (Decidable (s.conn.txClosed = true →
      ∀ j ∈ s.refs.jobs, j.place = .over))
  | .qclose => inferInstanceAs (Decidable (s.conn.state = .closed ∧
      ∀ j ∈ s.refs.jobs, j.place = .over))
  | .closeGo tx _ => inferInstanceAs (Decidable (s.conn.state = .closed → tx = .sent))
  | .dial _ | .listen .. | .accept | .recv .. | .timeout .. | .timeWaitPut | .write | .round ..
  | .writeFinish _ | .receive _ | .shutdown .. | .shutdownGo .. | .abort | .close .. | .closePut
  | .release => .isTrue trivial

/-- The first reference is with a call that opens the connection. -/
@[grind] def User.early : User → Bool
  | .opening | .connecting | .queued => true
  | _ => false

/-- What holds of a connection and its references between the steps. -/
@[grind cases] structure Kept (c : Conn) (r : Refs) : Prop where
  once : r.smGets ≤ 1
  unopened : r.smGets = 0 → c.state = .closed ∧ r.jobs = []
  opening : r.user = .opening → r.smGets = 0 ∧ c.txClosed = false
  early : r.user.early = true → (c.txClosed = true → c.state = .closed) ∧ r.owed = 0
  taken : r.user ≠ .opening → r.user ≠ .gone → r.smGets = 1
  sent : r.smGets = 1 → finSent c.state = true → c.txClosed = true
  stateMachine : r.smDrops+r.owed = if c.state = .closed then r.smGets else 0
  retransmits : ∀ j ∈ r.jobs, j.drops = if j.place = .over then 1 else 0
  counts : r.kref.Counts r.holders

section References

variable {c c' : Conn} {r r' : Refs} {s : State} {d : List Deferred} {j x : Job} {k : ℕ}

theorem User.count_eq_one {u : User} (h : u ≠ .gone) : u.count = 1 := by
  cases u with
  | gone => contradiction
  | _ => rfl

theorem put_eq_ok (h : r.put s = .ok r') : r' = { r with kref := r.kref.put } := by
  unfold Refs.put at h
  split at h
  · cases h
  · exact (Except.ok.inj h).symm

theorem get_eq_ok (h : r.get = .ok r') : ∃ k, r.kref.get = some k ∧ r' = { r with kref := k } := by
  unfold Refs.get at h
  split at h
  · cases h
  · exact ⟨_,‹_›,(Except.ok.inj h).symm⟩

theorem drop_one (h : r.drop s 1 = .ok r') :
    r' = { r with kref := r.kref.put, smDrops := r.smDrops+1 } := by
  obtain ⟨r₁,hput,h⟩ := bind_eq_ok h
  cases h
  exact put_eq_ok hput

theorem live_pos (hj : r.jobs[k]? = some j) (hlive : j.place ≠ .over) :
    0 < r.jobs.countP Job.live :=
  List.countP_pos_iff.mpr ⟨j,List.mem_of_getElem? hj,decide_eq_true hlive⟩

theorem countP_set_live (hj : r.jobs[k]? = some j) (hlive : j.place ≠ .over) :
    (r.jobs.set k x).countP Job.live+1 = r.jobs.countP Job.live+if x.live then 1 else 0 := by
  have hpos := live_pos hj hlive
  obtain ⟨hlt,rfl⟩ := List.getElem?_eq_some_iff.mp hj
  have hp : (r.jobs[k]).live = true := decide_eq_true hlive
  rw [List.countP_set hlt,if_pos hp]
  omega

theorem jobs_over (hnone : r.jobs.countP Job.live = 0) :
    ∀ j ∈ r.jobs, j.place = .over := by
  intro j hj
  have := List.countP_eq_zero.mp hnone j hj
  simpa [Job.live] using this

theorem live_eq_zero (h : ∀ j ∈ r.jobs, j.place = .over) : r.jobs.countP Job.live = 0 :=
  List.countP_eq_zero.mpr fun j hj => by simp [Job.live,h j hj]

theorem Kept.opened (h : Kept c r) (hopen : c.state ≠ .closed) :
    r.smGets = 1 ∧ r.smDrops = 0 ∧ r.owed = 0 := by
  have hone := h.once
  have hsm := h.stateMachine
  have hun : r.smGets ≠ 0 := fun h0 => hopen (h.unopened h0).1
  rw [if_neg hopen] at hsm
  omega

theorem Kept.goes (h : Kept c r) (hclosed : c'.state = .closed ↔ c.state = .closed)
    (hsent : finSent c'.state = true → finSent c.state = true ∨ c'.txClosed = true)
    (hmono : c.txClosed = true → c'.txClosed = true)
    (hearly : r.user.early = true → c'.txClosed = true → c.txClosed = true) : Kept c' r := by
  constructor <;> grind -linarith

theorem Kept.same (h : Kept c r) (hs : c'.state = c.state) (ht : c'.txClosed = c.txClosed) :
    Kept c' r :=
  h.goes (by rw [hs]) (fun hf => Or.inl (hs ▸ hf)) ht.trans fun _ => ht.symm.trans

theorem Kept.drops (h : Kept c r) (hd : Owes c c' d) (hr : r.drop c'.state (puts d) = .ok r') :
    Kept c' r' := by
  by_cases hclose : c.state ≠ .closed ∧ c'.state = .closed
  · obtain ⟨hgets,hdrops,howed⟩ := h.opened hclose.1
    have hputs := hd.puts
    rw [if_pos hclose] at hputs
    rw [hputs] at hr
    have htx : c'.txClosed = true := by
      rcases hd.sent (by rw [hclose.2]; rfl) with hf | htx
      · exact hd.mono (h.sent hgets hf)
      · exact htx
    have hcounts := h.counts
    have hholders : r.holders = Refs.holders { r with smDrops := r.smDrops+1 }+1 := by
      simp only [Refs.holders]
      omega
    rw [hholders] at hcounts
    have hput := hcounts.put
    rw [drop_one hr]
    constructor <;> grind -linarith
  · have hputs := hd.puts
    rw [if_neg hclose] at hputs
    rw [hputs] at hr
    cases hr
    refine h.goes ⟨fun hc => ?_,hd.stays⟩ hd.sent hd.mono fun _ htx => ?_
    · by_contra hopen
      exact hclose ⟨hopen,hc⟩
    · exact (hd.early htx).resolve_right hclose

theorem Kept.shut (h : Kept c r) (hu : r.user.early = false)
    (hclosed : c'.state = .closed ↔ c.state = .closed) (htx : c'.txClosed = true) : Kept c' r :=
  h.goes hclosed (fun _ => Or.inr htx) (fun _ => htx) fun hu' => by
    rw [hu] at hu'
    cases hu'

theorem Kept.timeWait (h : Kept c r) (hs : c.state = .timeWait) :
    Kept { c with state := .closed } { r with owed := r.owed+1 } := by
  obtain ⟨hgets,hdrops,howed⟩ := h.opened (by rw [hs]; decide)
  have htx := h.sent hgets (by rw [hs]; rfl)
  have hcounts : r.kref.Counts (Refs.holders { r with owed := r.owed+1 }) := h.counts
  constructor <;> grind -linarith

theorem Kept.timeWaitPut (h : Kept c r) (howed : r.owed ≠ 0)
    (hr : ({ r with owed := r.owed-1 } : Refs).drop s 1 = .ok r') : Kept c r' := by
  have hone := h.once
  have hsm := h.stateMachine
  have hcounts := h.counts
  have hclosed : c.state = .closed := by
    by_contra hopen
    exact howed (h.opened hopen).2.2
  rw [if_pos hclosed] at hsm
  have hholders : r.holders =
      Refs.holders { r with owed := r.owed-1, smDrops := r.smDrops+1 }+1 := by
    simp only [Refs.holders]
    omega
  rw [hholders] at hcounts
  have hput := hcounts.put
  rw [drop_one hr]
  constructor <;> grind -linarith

/-! ### Retransmissions -/

theorem Kept.newJob (h : Kept c r) (hopen : c.state ≠ .closed) (hr : r.get = .ok r')
    (nowait : Bool) : Kept c { r' with jobs := r'.jobs++[⟨.taken nowait,0⟩] } := by
  obtain ⟨hgets,hdrops,-⟩ := h.opened hopen
  obtain ⟨k,hk,rfl⟩ := get_eq_ok hr
  have hholders : Refs.holders { r with kref := k, jobs := r.jobs++[⟨.taken nowait,0⟩] } =
      r.holders+1 := by
    simp only [Refs.holders,List.countP_append]
    rfl
  have hpos : 0 < r.holders := by
    simp only [Refs.holders]
    omega
  have hcounts := hholders ▸ h.counts.get hpos hk
  constructor <;> grind -linarith

theorem Kept.set_jobs (h : Kept c r) (hx : x.drops = if x.place = .over then 1 else 0) :
    ∀ j ∈ r.jobs.set k x, j.drops = if j.place = .over then 1 else 0 := by
  intro j hj
  rcases List.mem_or_eq_of_mem_set hj with hj | rfl
  · exact h.retransmits j hj
  · exact hx

theorem Kept.job_drops (h : Kept c r) (hj : r.jobs[k]? = some j) (hlive : j.place ≠ .over) :
    j.drops = 0 := by
  rw [h.retransmits j (List.mem_of_getElem? hj),if_neg hlive]

theorem Kept.move (h : Kept c r) (hj : r.jobs[k]? = some j) (hlive : j.place ≠ .over) {p : Place}
    (hp : p ≠ .over) : Kept c (r.move k j p) := by
  have hmoved : Job.live { j with place := p } = true := decide_eq_true hp
  have hcount := countP_set_live (x:={ j with place := p }) hj hlive
  have hholders : (r.move k j p).holders = r.holders := by
    rw [if_pos hmoved] at hcount
    simp only [Refs.holders,Refs.move]
    omega
  have hjobs := h.set_jobs (k:=k) (x:={ j with place := p })
    ((h.job_drops hj hlive).trans (if_neg hp).symm)
  have hcounts := hholders.symm ▸ h.counts
  constructor <;> grind -linarith [Refs.move]

theorem Kept.jobPut (h : Kept c r) (hj : r.jobs[k]? = some j) (hlive : j.place ≠ .over)
    (hr : (r.move k { j with drops := j.drops+1 } .over).put s = .ok r') : Kept c r' := by
  have hcount := countP_set_live (x:=⟨.over,j.drops+1⟩) hj hlive
  have hcounts := h.counts
  have hholders : r.holders = (r.move k { j with drops := j.drops+1 } .over).holders+1 := by
    rw [if_neg (by simp [Job.live])] at hcount
    simp only [Refs.holders,Refs.move]
    omega
  rw [hholders] at hcounts
  have hjobs := h.set_jobs (k:=k) (x:=⟨.over,j.drops+1⟩) (by rw [if_pos rfl,h.job_drops hj hlive])
  have hput := hcounts.put
  rw [put_eq_ok hr]
  constructor <;> grind -linarith [Refs.move]

/-! ### The first reference -/

theorem Kept.give (h : Kept c r) (hopening : r.user ≠ .opening) (hgone : r.user ≠ .gone)
    {u : User} (hu : u.early = false) (hu' : u ≠ .gone) : Kept c { r with user := u } := by
  have hholders : Refs.holders { r with user := u } = r.holders := by
    simp only [Refs.holders,User.count_eq_one hgone,User.count_eq_one hu']
  have hcounts := hholders.symm ▸ h.counts
  constructor <;> grind -linarith

theorem Kept.gone (h : Kept c r) (hgone : r.user ≠ .gone) {k : Kref}
    (hk : ∀ n, r.kref.Counts (n+1) → n = (r.smGets-r.smDrops)+r.jobs.countP Job.live → k.Counts n) :
    Kept c { r with kref := k, user := .gone } := by
  have hcounts := h.counts
  have hholders : r.holders = (r.smGets-r.smDrops)+r.jobs.countP Job.live+1 := by
    simp only [Refs.holders,User.count_eq_one hgone]
    omega
  have hafter : Refs.holders { r with kref := k, user := .gone } =
      (r.smGets-r.smDrops)+r.jobs.countP Job.live := by
    simp only [Refs.holders,User.count,Nat.zero_add]
  rw [hholders] at hcounts
  have hgo := hk _ hcounts rfl
  rw [← hafter] at hgo
  constructor <;> grind -linarith

theorem Kept.closePut (h : Kept c r) (hgone : r.user ≠ .gone)
    (hr : ({ r with user := .gone } : Refs).put s = .ok r') : Kept c r' := by
  rw [put_eq_ok hr]
  exact h.gone hgone fun n hn _ => hn.put

theorem Kept.destroy (h : Kept c r) (hgone : r.user ≠ .gone) (hsm : r.smGets ≤ r.smDrops)
    (hjobs : ∀ j ∈ r.jobs, j.place = .over) : Kept c r.destroy := by
  refine h.gone hgone fun n hn hval => ?_
  rw [live_eq_zero hjobs] at hval
  obtain rfl : n = 0 := by omega
  exact hn.release

theorem Kept.open (h : Kept c r) (hu : r.user = .opening) (hr : r.get = .ok r')
    (hs : c'.state ≠ .closed) (hsent : finSent c'.state = false) (ht : c'.txClosed = c.txClosed)
    {u : User} (hu' : u ≠ .opening ∧ u ≠ .gone) :
    Kept c' { r' with user := u, smGets := r'.smGets+1 } := by
  obtain ⟨hgets,htx⟩ := h.opening hu
  obtain ⟨hclosed,hjobs⟩ := h.unopened hgets
  obtain ⟨k,hk,rfl⟩ := get_eq_ok hr
  have hsm := h.stateMachine
  rw [if_pos hclosed] at hsm
  have hholders : Refs.holders { r with kref := k, user := u, smGets := r.smGets+1 } =
      r.holders+1 := by
    have hone : User.opening.count = 1 := rfl
    simp only [Refs.holders,hu,hone,User.count_eq_one hu'.2,hgets]
    omega
  have hpos : 0 < r.holders := by
    simp only [Refs.holders,hu,User.count]
    omega
  have hcounts := hholders ▸ h.counts.get hpos hk
  constructor <;> grind -linarith

end References

/-! ### Sections -/

section Sections

variable {s t : Sys} {c c' : Conn} {d : List Deferred} {tx : TxResult}

theorem drop_user {r r' : Refs} {st : State} {n : ℕ} (h : r.drop st n = .ok r') :
    r'.user = r.user := by
  induction n generalizing r with
  | zero =>
    cases h
    rfl
  | succ n ih =>
    obtain ⟨r₁,hput,h⟩ := bind_eq_ok h
    rw [ih h,put_eq_ok hput]

theorem fail_cases {err : ℤ} (h : s.fail err = .ok t) : ∃ c d, tcpConnFail s.conn err = .ok (c,d) ∧
    s.settle c d = .ok t := by
  obtain ⟨⟨c,d⟩,hfail,h⟩ := bind_eq_ok h
  exact ⟨c,d,hfail,h⟩

/-- `tcp_conn_fail` drops the reference of the state machine in any state. -/
theorem fail_eq_ok {err : ℤ} (h : s.fail err = .ok t) : ∃ c, c.state = .closed ∧
    t = { s with
      conn := c
      refs := { s.refs with kref := s.refs.kref.put, smDrops := s.refs.smDrops+1 } } := by
  obtain ⟨c,d,hfail,h⟩ := fail_cases h
  obtain ⟨r,hr,h⟩ := bind_eq_ok h
  rw [(tcpConnFail_closes hfail).2.2.2] at hr
  cases h
  exact ⟨c,(tcpConnFail_closes hfail).1,by rw [drop_one hr]⟩

theorem shutdownTxSend_cases {ok : Bool} (h : shutdownTxSend c tx = .ok (c',ok,d)) :
    ok = false ∧ tx ≠ .sent ∧ c'.state = c.state ∧ c'.txClosed = c.txClosed ∨
      ok = true ∧ c'.state = TcpSend.onShutdown c.state ∧ c'.txClosed = true := by
  cases tx with
  | nomem =>
    cases h
    exact Or.inl ⟨rfl,by decide,rfl,rfl⟩
  | failed =>
    cases h
    exact Or.inl ⟨rfl,by decide,rfl,rfl⟩
  | sent =>
    right
    rw [shutdownTxSend] at h
    dsimp only [tcpTxCtl] at h
    simp only [decide_true,Bool.not_true,Bool.false_eq_true,if_false] at h
    split at h
    · rename_i hs
      obtain ⟨_,-,h⟩ := setState_bind h
      cases h
      exact ⟨rfl,by rw [hs]; rfl,rfl⟩
    split at h
    · rename_i hs
      obtain ⟨_,-,h⟩ := setState_bind h
      cases h
      exact ⟨rfl,by rw [hs]; rfl,rfl⟩
    · rename_i hest hwait
      cases h
      refine ⟨rfl,?_,rfl⟩
      change c.state = TcpSend.onShutdown c.state
      cases hs : c.state <;> first | rfl | contradiction

theorem onShutdown_closed (st : State) : TcpSend.onShutdown st = .closed ↔ st = .closed := by
  cases st <;> simp [TcpSend.onShutdown]

theorem sendSyn_cases {flags : Flags} {opts : Options} {st : State} {o : Option Conn}
    (h : sendSyn c flags opts tx st = .ok (o,d)) :
    ∀ c' ∈ o, c'.state = st ∧ c'.txClosed = c.txClosed := by
  intro c' hc'
  rw [sendSyn] at h
  dsimp only at h
  split at h
  · cases h
    cases hc'
  · obtain ⟨_,-,h⟩ := setState_bind h
    cases h
    cases hc'
    refine ⟨rfl,?_⟩
    cases tx <;> rfl

end Sections

/-! ### Steps -/

/-- Nobody shuts down a connection that is being opened. -/
structure Inv (s : Sys) : Prop where
  kept : Kept s.conn s.refs
  shutters : s.refs.user.early = true → s.shutters = []

section Steps

variable {s t : Sys} {c : Conn} {d : List Deferred} {tx : TxResult} {err : ℤ}

theorem Inv.disciplined (h : Inv s) : Disciplined s :=
  ⟨h.kept.once,h.kept.stateMachine,h.kept.retransmits,h.kept.counts.released_eq⟩

theorem Inv.settle (h : Inv s) (hd : Owes s.conn c d) (ht : s.settle c d = .ok t) : Inv t := by
  obtain ⟨r,hr,ht⟩ := bind_eq_ok ht
  cases ht
  refine ⟨h.kept.drops hd hr,fun hu => h.shutters ?_⟩
  rw [← drop_user hr]
  exact hu

theorem Inv.fail (h : Inv s) (hopen : s.conn.state ≠ .closed) (ht : s.fail err = .ok t) :
    Inv t := by
  obtain ⟨c,d,hfail,ht⟩ := fail_cases ht
  exact h.settle (tcpConnFail_owes hopen hfail) ht

theorem Inv.opened (h : Inv s) (hu : s.refs.user = .opening) {u : User}
    (hu' : u ≠ .opening ∧ u ≠ .gone) {o : Option Conn}
    (ho : ∀ c ∈ o, c.state ≠ .closed ∧ finSent c.state = false ∧ c.txClosed = s.conn.txClosed)
    (ht : s.opened u o = .ok t) : Inv t := by
  cases o with
  | none =>
    obtain ⟨hgets,-⟩ := h.kept.opening hu
    obtain ⟨-,hjobs⟩ := h.kept.unopened hgets
    cases ht
    refine ⟨h.kept.destroy (by rw [hu]; decide) (by omega) ?_,fun hu'' => by cases hu''⟩
    rw [hjobs]
    exact fun j hj => by cases hj
  | some c =>
    obtain ⟨hs,hsent,htx⟩ := ho c rfl
    obtain ⟨r,hr,ht⟩ := bind_eq_ok ht
    cases ht
    exact ⟨h.kept.open hu hr hs hsent htx hu',fun _ => h.shutters (by rw [hu]; rfl)⟩

theorem Inv.same (h : Inv s) (hs : t.conn.state = s.conn.state)
    (ht : t.conn.txClosed = s.conn.txClosed) (hr : t.refs = s.refs)
    (hsh : t.shutters = s.shutters) : Inv t := by
  refine ⟨?_,fun hu => hsh.trans (h.shutters (by rw [← hr]; exact hu))⟩
  rw [hr]
  exact h.kept.same hs ht

theorem Inv.timeout (h : Inv s) {nowait : Bool} {due : Due}
    (ht : s.tcpHandleTimeouts nowait due = .ok t) : Inv t := by
  unfold Sys.tcpHandleTimeouts at ht
  split at ht
  · cases ht
    exact h
  rename_i hopen
  split at ht
  · exact h.fail hopen ht
  split at ht
  · rename_i hwait
    obtain ⟨_,-,ht⟩ := setState_bind ht
    cases ht
    exact ⟨h.kept.timeWait hwait.1,h.shutters⟩
  dsimp only at ht
  split at ht
  · obtain ⟨r,hr,ht⟩ := bind_eq_ok ht
    cases ht
    obtain ⟨_,-,hr'⟩ := get_eq_ok hr
    refine ⟨(h.kept.newJob hopen hr nowait).same rfl rfl,fun hu => h.shutters ?_⟩
    rw [hr'] at hu
    exact hu
  · cases ht
    exact h.same rfl rfl rfl rfl

theorem Inv.shutSend (h : Inv s) (hu : s.refs.user.early = false) {rx : Bool}
    (ht : s.shutSend rx tx = .ok t) : Inv t := by
  obtain ⟨⟨c,ok,d⟩,hsend,ht⟩ := bind_eq_ok ht
  cases ht
  have hrx : ∀ b : Bool, ((if b then (tcpConnShutdownRx c).1 else c).state = c.state) ∧
      (if b then (tcpConnShutdownRx c).1 else c).txClosed = c.txClosed := by
    intro b
    cases b with
    | false => exact ⟨rfl,rfl⟩
    | true =>
      obtain ⟨hk,-,hs⟩ := tcpConnShutdownRx_sends c
      exact ⟨hs,hk.txClosed⟩
  obtain ⟨hs,htx⟩ := hrx (ok && rx)
  rcases shutdownTxSend_cases hsend with ⟨-,-,hs',htx'⟩ | ⟨-,hs',htx'⟩
  · exact h.same (hs.trans hs') (htx.trans htx') rfl rfl
  · refine ⟨h.kept.shut hu ?_ (htx.trans htx'),h.shutters⟩
    dsimp only
    rw [hs,hs']
    exact onShutdown_closed _

theorem Inv.closed (h : Inv s) (hopening : s.refs.user ≠ .opening) (hgone : s.refs.user ≠ .gone) :
    Inv s.closed := by
  obtain ⟨hk,-,hs⟩ := tcpConnShutdownRx_sends s.conn
  exact ⟨(h.kept.give hopening hgone rfl (by decide)).same hs hk.txClosed,fun hu => by cases hu⟩

/-- `tcp_close` fails a connection that cannot be shut down, unless it was closed before. -/
theorem Inv.closeSend (h : Inv s) (hu : s.refs.user = .holding ∨ s.refs.user = .closing)
    (hmeets : s.conn.state = .closed → tx = .sent) (ht : s.closeSend tx err = .ok t) : Inv t := by
  have hearly : s.refs.user.early = false := by rcases hu with hu | hu <;> rw [hu] <;> rfl
  have hopening : s.refs.user ≠ .opening := by rcases hu with hu | hu <;> rw [hu] <;> decide
  have hgone : s.refs.user ≠ .gone := by rcases hu with hu | hu <;> rw [hu] <;> decide
  obtain ⟨⟨c,ok,d⟩,hsend,ht⟩ := bind_eq_ok ht
  dsimp only at ht
  rcases shutdownTxSend_cases hsend with ⟨rfl,htx,hs',htx'⟩ | ⟨rfl,hs',htx'⟩
  · obtain ⟨u,hfail,ht⟩ := bind_eq_ok ht
    have hsame : Inv { s with conn := c } := h.same hs' htx' rfl rfl
    have hopen : c.state ≠ .closed := fun hc => htx (hmeets (hs'.symm.trans hc))
    obtain ⟨_,-,rfl⟩ := fail_eq_ok hfail
    cases ht
    exact (hsame.fail hopen hfail).closed hopening hgone
  · have hshut : Inv { s with conn := c } := by
      refine ⟨h.kept.shut hearly ?_ htx',h.shutters⟩
      dsimp only
      rw [hs']
      exact onShutdown_closed _
    cases ht
    exact hshut.closed hopening hgone

theorem Inv.move (h : Inv s) {k : ℕ} {j : Job} (hj : s.refs.jobs[k]? = some j)
    (hlive : j.place ≠ .over) {p : Place} (hp : p ≠ .over) : Inv (s.move k j p) :=
  ⟨h.kept.move hj hlive hp,h.shutters⟩

theorem Inv.beginResend (h : Inv s) {k : ℕ} {j : Job} (hj : s.refs.jobs[k]? = some j)
    (hlive : j.place ≠ .over) : Inv (s.beginResend k j) := by
  unfold Sys.beginResend retransmitStart
  split
  · exact h.move hj hlive (by simp)
  · rename_i c hc
    split at hc
    · cases hc
    · cases hc
      exact (h.move hj hlive (p:=.resending 0) (by simp)).same rfl rfl rfl rfl

/-- A retransmission whose thread is spawned, and that finds no other writer if it cannot wait. -/
theorem Inv.advance (h : Inv s) {k : ℕ} {j : Job} {go inPlace : Bool}
    (hj : s.refs.jobs[k]? = some j) (hspawn : j.place = .taken false → go = true)
    (hfree : j.place = .taken true → s.conn.txExclusive = true → s.conn.state = .closed)
    (ht : s.advance k j go inPlace = .ok (some t)) : Inv t := by
  unfold Sys.advance at ht
  dsimp only at ht
  split at ht
  · rename_i hp
    cases ht
    rw [hspawn hp]
    exact h.move hj (by rw [hp]; simp) (by simp)
  · rename_i hp
    have hlive : j.place ≠ .over := by rw [hp]; simp
    split at ht
    · rename_i hbusy
      rw [Bool.and_eq_true,decide_eq_true_eq] at hbusy
      exact absurd (hfree hp hbusy.1) hbusy.2
    · cases ht
      exact h.beginResend hj hlive
  · rename_i hp
    split at ht
    · cases ht
    · cases ht
      exact h.beginResend hj (by rw [hp]; simp)
  · rename_i i hp
    have hlive : j.place ≠ .over := by rw [hp]; simp
    split at ht
    · obtain ⟨⟨c,d⟩,hfin,ht⟩ := bind_eq_ok ht
      have hfinished := TcpSend.tcpWriteFinish_finished hfin
      cases ht
      exact (h.move hj hlive (p:=.putting) (by simp)).same hfinished.state hfinished.txClosed rfl
        rfl
    · obtain ⟨m,-,ht⟩ := bind_eq_ok ht
      cases ht
      exact (h.move hj hlive (p:=.resending (i+1)) (by simp)).same rfl rfl rfl rfl
  · rename_i hp
    obtain ⟨r,hr,ht⟩ := bind_eq_ok ht
    cases ht
    refine ⟨h.kept.jobPut hj (by rw [hp]; simp) hr,fun hu => h.shutters ?_⟩
    rw [put_eq_ok hr] at hu
    exact hu
  · cases ht

theorem Inv.give (h : Inv s) (hopening : s.refs.user ≠ .opening) (hgone : s.refs.user ≠ .gone)
    {u : User} (hu : u.early = false) (hu' : u ≠ .gone) :
    Inv { s with refs := { s.refs with user := u } } := by
  refine ⟨h.kept.give hopening hgone hu hu',fun hearly => ?_⟩
  dsimp only at hearly
  rw [hu] at hearly
  cases hearly

/-- The caller that opens a connection, or its queue, destroys it when it is closed. -/
theorem Inv.destroy (h : Inv s) (hearly : s.refs.user.early = true)
    (hclosed : s.conn.state = .closed) (hjobs : ∀ j ∈ s.refs.jobs, j.place = .over) :
    Kept s.conn s.refs.destroy := by
  have hgone : s.refs.user ≠ .gone := fun hu => by rw [hu] at hearly; cases hearly
  have hsm := h.kept.stateMachine
  have howed := (h.kept.early hearly).2
  rw [if_pos hclosed,howed] at hsm
  exact h.kept.destroy hgone (by omega) hjobs

section Guards

variable {α β : Type} {x : Except Abort (Option α)} {y : Except Abort α} {u : α} {p : Prop}
  [Decidable p]

theorem bind_ok_iff {f : α → Except Abort β} {r : β} :
    y >>= f = .ok r ↔ ∃ a, y = .ok a ∧ f a = .ok r :=
  ⟨bind_eq_ok,by rintro ⟨a,rfl,h⟩; exact h⟩

theorem some_ok_iff : some <$> y = .ok (some u) ↔ y = .ok u := ⟨some_eq_ok,by rintro rfl; rfl⟩

theorem guard_ok_iff : (if p then .ok none else x) = .ok (some u) ↔ ¬p ∧ x = .ok (some u) := by
  split <;> simp_all

theorem ok_guard_iff : (if p then x else .ok none) = .ok (some u) ↔ p ∧ x = .ok (some u) := by
  split <;> simp_all

end Guards

theorem step_attempt {ev : Event} (h : s.step ev = some t) : s.attempt ev = .ok (some t) :=
  toOption_bind_eq_some.mp h

theorem Inv.step (h : Inv s) {ev : Event} (hmeets : Meets s ev) (ht : s.step ev = some t) :
    Inv t := by
  have ht := step_attempt ht
  cases ev with simp only [Sys.attempt,ok_pure,bind_ok_iff,some_ok_iff,guard_ok_iff,ok_guard_iff,ne_eq,
    not_not,Prod.exists,Except.ok.injEq,Option.some.injEq,Option.ite_none_right_eq_some] at ht
  | dial tx =>
    obtain ⟨hu,o,d,hdial,ht⟩ := ht
    refine h.opened hu (u:=.connecting) (by decide) (fun c hc => ?_) ht
    obtain ⟨hs,htx⟩ := sendSyn_cases hdial c hc
    exact ⟨by rw [hs]; decide,by rw [hs]; rfl,htx⟩
  | listen opts tx =>
    obtain ⟨hu,o,d,hsyn,ht⟩ := ht
    refine h.opened hu (u:=.queued) (by decide) (fun c hc => ?_) ht
    obtain ⟨hs,htx⟩ := sendSyn_cases hsyn c hc
    exact ⟨by rw [hs]; decide,by rw [hs]; rfl,htx⟩
  | dialReturns =>
    obtain ⟨hu,ht⟩ := ht
    split at ht
    · rename_i htx
      cases ht
      exact ⟨h.destroy (by rw [hu]; rfl)
        ((h.kept.early (by rw [hu]; rfl)).1 htx) (hmeets htx),by rintro ⟨⟩⟩
    · obtain ⟨-,⟨⟩⟩ := guard_ok_iff.mp ht
      exact h.give (by rw [hu]; decide) (by rw [hu]; decide) rfl (by decide)
  | accept =>
    obtain ⟨hu,rfl⟩ := ht
    exact h.give (by rw [hu]; decide) (by rw [hu]; decide) rfl (by decide)
  | qclose =>
    obtain ⟨hu,rfl⟩ := ht
    exact ⟨h.destroy (by rw [hu]; rfl) hmeets.1 hmeets.2,by rintro ⟨⟩⟩
  | recv env p =>
    obtain ⟨-,c,d,hrx,ht⟩ := ht
    exact h.settle (tcpRxConn_spec hrx).2 ht
  | error err => exact h.fail hmeets ht.2
  | timeout nowait due => exact h.timeout ht.2
  | timeWaitPut =>
    obtain ⟨howed,r,hr,rfl⟩ := ht
    refine ⟨h.kept.timeWaitPut howed hr,fun hu => h.shutters ?_⟩
    rwa [drop_one hr] at hu
  | job k go inPlace =>
    split at ht
    · cases ht
    · rename_i j hj
      obtain ⟨hspawn,hfree⟩ := hmeets j hj
      exact h.advance hj hspawn hfree ht
  | write =>
    obtain ⟨-,⟨c,n⟩,hstart,rfl⟩ := ht.imp_right Option.map_eq_some_iff.mp
    obtain ⟨-,⟨⟩⟩ := Option.ite_none_left_eq_some.mp hstart
    exact h.same rfl rfl rfl rfl
  | round rest push alloc =>
    obtain ⟨-,⟨c,m,rest'⟩,hfill,rfl⟩ := ht.imp_right Option.map_eq_some_iff.mp
    obtain ⟨n,-,hfilled⟩ := TcpSend.txFill_filled hfill
    have hemit : (txEmit c m rest' push).state = c.state ∧
        (txEmit c m rest' push).txClosed = c.txClosed := by
      rw [txEmit]
      split <;> exact ⟨rfl,rfl⟩
    exact h.same (hemit.1.trans (by rw [hfilled.conn])) (hemit.2.trans (by rw [hfilled.conn])) rfl rfl
  | writeFinish wake =>
    obtain ⟨-,c,d,hfin,rfl⟩ := ht
    have hfinished := TcpSend.tcpWriteFinish_finished hfin
    exact h.same hfinished.state hfinished.txClosed rfl rfl
  | receive ev =>
    obtain ⟨hev,net,hnet,ht⟩ := ht
    obtain ⟨net,rfl,rfl⟩ := Option.map_eq_some_iff.mp ht
    obtain ⟨hk,-,hs⟩ := TcpSend.reads_keep hev hnet
    exact h.same hs hk.txClosed rfl rfl
  | shutdown rx tx =>
    obtain ⟨hu,ht⟩ := ht
    split at ht
    · cases ht
      obtain ⟨hk,-,hs⟩ := tcpConnShutdownRx_sends s.conn
      cases rx with
      | false => exact h.same rfl rfl rfl rfl
      | true => exact h.same hs hk.txClosed rfl rfl
    obtain ⟨_,-,ht⟩ := bind_eq_ok ht
    split at ht
    · cases ht
      exact ⟨h.kept,fun hu' => by rw [hu] at hu'; cases hu'⟩
    · exact h.shutSend (by rw [hu]; rfl) (some_eq_ok ht)
  | shutdownGo i tx =>
    split at ht
    · cases ht
    rename_i rx hi
    have hu : s.refs.user.early = false := by
      refine Bool.eq_false_iff.mpr fun hu => ?_
      rw [h.shutters hu] at hi
      cases hi
    have herase : Inv { s with shutters := s.shutters.eraseIdx i } :=
      ⟨h.kept,fun hu' => by rw [hu] at hu'; cases hu'⟩
    exact herase.shutSend hu (some_eq_ok (guard_ok_iff.mp ht).2)
  | abort =>
    obtain ⟨-,ht⟩ := ht
    split at ht
    · cases ht
      exact h
    · exact h.fail ‹_› (some_eq_ok ht)
  | close tx err =>
    obtain ⟨hu,ht⟩ := ht
    split at ht
    · cases ht
      exact h.closed (by rw [hu]; decide) (by rw [hu]; decide)
    rename_i htx
    obtain ⟨_,-,ht⟩ := bind_eq_ok ht
    split at ht
    · cases ht
      exact h.give (by rw [hu]; decide) (by rw [hu]; decide) rfl (by decide)
    · -- a closed connection has `tx_closed` set, so nothing is sent on one here
      refine h.closeSend (Or.inl hu) (fun hc => absurd ?_ htx) (some_eq_ok ht)
      exact h.kept.sent (h.kept.taken (by rw [hu]; decide) (by rw [hu]; decide)) (by rw [hc]; rfl)
  | closeGo tx err =>
    obtain ⟨hu,ht⟩ := ht
    rw [not_or,not_not] at hu
    exact h.closeSend (Or.inr hu.1) hmeets ht
  | closePut =>
    obtain ⟨hu,r,hr,rfl⟩ := ht
    refine ⟨h.kept.closePut (by rw [hu]; decide) hr,fun hu' => ?_⟩
    rw [put_eq_ok hr] at hu'
    cases hu'
  | release =>
    obtain ⟨-,rfl⟩ := ht
    exact h.same rfl rfl rfl rfl

/-! ### Steps that break the discipline -/

/-- The reference of the state machine cannot be dropped again. -/
theorem Inv.not_dropped (h : Inv s) (ht : Disciplined t) (hclosed : s.conn.state = .closed)
    (hclosed' : t.conn.state = .closed) (howed : t.refs.owed = s.refs.owed)
    (hgets : t.refs.smGets = s.refs.smGets) (hdrops : t.refs.smDrops = s.refs.smDrops+1) :
    False := by
  have hsm := h.kept.stateMachine
  have hsm' := ht.stateMachine
  rw [if_pos hclosed] at hsm
  rw [if_pos hclosed',howed,hgets,hdrops] at hsm'
  omega

/-- A retransmission cannot end without dropping its reference. -/
theorem Inv.not_leaked (h : Inv s) {k : ℕ} {j : Job} (hj : s.refs.jobs[k]? = some j)
    (hlive : j.place ≠ .over) : ¬Disciplined (s.move k j .over) := by
  intro ht
  obtain ⟨hlt,-⟩ := List.getElem?_eq_some_iff.mp hj
  have hdrops := ht.retransmits { j with place := .over } (List.mem_set hlt _)
  rw [if_pos rfl] at hdrops
  have := h.kept.job_drops hj hlive
  dsimp only at hdrops
  omega

theorem Inv.last (h : Inv s) (hgone : s.refs.user ≠ .gone)
    (ht : Disciplined { s with refs := s.refs.destroy }) :
    s.refs.smGets ≤ s.refs.smDrops ∧ ∀ j ∈ s.refs.jobs, j.place = .over := by
  have hreleased := h.kept.counts.released_eq
  have hdestroyed := ht.destroyed
  have hholders : s.refs.holders = Refs.holders s.refs.destroy+1 := by
    simp only [Refs.holders,Refs.destroy,User.count]
    omega
  rw [hholders,if_neg (Nat.succ_ne_zero _)] at hreleased
  have hzero : Refs.holders s.refs.destroy = 0 := by
    by_contra hne
    rw [if_neg hne] at hdestroyed
    simp [Refs.destroy,Kref.release] at hdestroyed
  simp only [Refs.holders,Refs.destroy,User.count] at hzero
  exact ⟨by omega,jobs_over (by omega)⟩

/-- A step that breaks its condition is seen at once. -/
theorem Inv.meets (h : Inv s) {ev : Event} (hstep : s.step ev = some t) (hd : Disciplined t) :
    Meets s ev := by
  have ht := step_attempt hstep
  cases ev with
  | error err =>
    intro hclosed
    obtain ⟨c,hc,rfl⟩ := fail_eq_ok (some_eq_ok (guard_ok_iff.mp ht).2)
    exact h.not_dropped hd hclosed hc rfl rfl rfl
  | job k go inPlace =>
    rintro j hj
    simp only [Sys.attempt] at ht
    rw [hj] at ht
    refine ⟨fun hp => ?_,fun hp hex => ?_⟩
    · simp only [Sys.advance,hp] at ht
      cases go with
      | true => rfl
      | false =>
        cases ht
        exact absurd hd (h.not_leaked hj (by rw [hp]; simp))
    · by_contra hopen
      have hbusy : (s.conn.txExclusive && decide (s.conn.state ≠ .closed)) = true := by
        rw [hex,Bool.true_and]
        exact decide_eq_true hopen
      simp only [Sys.advance,hp] at ht
      rw [if_pos hbusy] at ht
      cases ht
      exact h.not_leaked hj (by rw [hp]; simp) hd
  | dialReturns =>
    intro htx
    obtain ⟨hu,ht⟩ := guard_ok_iff.mp ht
    rw [ne_eq,not_not] at hu
    rw [if_pos htx] at ht
    cases ht
    exact (h.last (by rw [hu]; decide) hd).2
  | qclose =>
    obtain ⟨hu,⟨⟩⟩ := Option.ite_none_right_eq_some.mp (Except.ok.inj ht)
    obtain ⟨hsm,hjobs⟩ := h.last (by rw [hu]; decide) hd
    refine ⟨?_,hjobs⟩
    by_contra hopen
    obtain ⟨hgets,hdrops,-⟩ := h.kept.opened hopen
    omega
  | closeGo tx err =>
    intro hclosed
    obtain ⟨⟨c,ok,d⟩,hsend,ht⟩ := bind_eq_ok (some_eq_ok (guard_ok_iff.mp ht).2)
    dsimp only at ht
    by_contra hne
    obtain ⟨rfl,-,hs,-⟩ : ok = false ∧ tx ≠ .sent ∧ c.state = s.conn.state ∧
        c.txClosed = s.conn.txClosed := by
      cases tx with
      | sent => exact absurd rfl hne
      | nomem =>
        cases hsend
        exact ⟨rfl,hne,rfl,rfl⟩
      | failed =>
        cases hsend
        exact ⟨rfl,hne,rfl,rfl⟩
    obtain ⟨u,hfail,ht⟩ := bind_eq_ok ht
    obtain ⟨c',hc',rfl⟩ := fail_eq_ok hfail
    cases ht
    exact h.not_dropped hd hclosed ((tcpConnShutdownRx_sends c').2.2.trans hc') rfl rfl rfl
  | _ => trivial

end Steps

theorem inv_start {c : Conn} (hclosed : c.state = .closed) (hopen : c.txClosed = false) :
    Inv (.start c) where
  kept := {
    once := Nat.zero_le 1
    unopened := fun _ => ⟨hclosed,rfl⟩
    opening := fun _ => ⟨rfl,hopen⟩
    early := fun _ => ⟨fun _ => hclosed,rfl⟩
    taken := fun hu => absurd rfl hu
    sent := fun h => by cases h
    stateMachine := (if_pos hclosed).symm
    retransmits := fun j hj => by cases hj
    counts := Kref.init_counts }
  shutters _ := rfl

/-- In a run from a connection that is attached, every reference is dropped once and the connection
is destroyed once, by its last holder, just if every step meets its condition. -/
theorem reference_discipline_iff {c : Conn} (hclosed : c.state = .closed)
    (hopen : c.txClosed = false) {es : List Event} {t : Sys}
    (ht : Machine.run Sys.step (.start c) es = some t) :
    (∀ fs u, fs <+: es → Machine.run Sys.step (.start c) fs = some u → Disciplined u) ↔
      Machine.Along Sys.step Meets (.start c) es :=
  Machine.all_iff_along (fun h => h.disciplined) (fun h hstep hmeets => h.step hmeets hstep)
    (fun h hstep hd => h.meets hstep hd) (inv_start hclosed hopen) ht

/-- A connection of the source, with a small window. -/
def fresh : Conn := tcpConnAlloc 65535 1460 100

def plain (seq ack : BitVec 32) (flags : Flags) : Packet where
  seq := seq
  ack := ack
  win := 1000
  off := ⟨5,five_lt_sixteen⟩
  flags := flags
  rest := []
  beyond := fun _ => 0
  rest_le := no_text_le

/-- The SYN of a dialer is answered. -/
def answered : Event := .recv ⟨101,.sent⟩ (plain 500 101 (tcpSyn ||| tcpAck))

/-- A handler finds the first buffer of `txq` due. -/
def resendDue (nowait : Bool) : Event := .timeout nowait ⟨false,false,false,true⟩

/-- The SYN is sent twice before it is answered, and the connection is closed and then fails. -/
theorem reference_discipline_iff_closed :
    let es : List Event := [.dial .sent,resendDue false,.job 0 true true,.job 0 true true,
      .job 0 true true,.job 0 false true,.job 0 true true,answered,.dialReturns,.close .sent 0,
      .closePut,.error 113,.release]
    ∃ t, Machine.run Sys.step (.start fresh) es = some t ∧ t.refs.kref = ⟨0,1⟩ ∧
      ∀ fs u, fs <+: es → Machine.run Sys.step (.start fresh) fs = some u → Disciplined u := by
  refine ⟨_,rfl,by decide,?_⟩
  exact (reference_discipline_iff rfl rfl rfl).mpr (by decide)

/-- The events that send a byte on an established connection. -/
def sends : List Event := [.write,.round [1] true true,.writeFinish true]

/-- A second error drops the reference of the state machine again, and `tcp_dial` then destroys the
connection for the second time; a thread that cannot be spawned, and a `tcp_retransmit_nowait` that
finds a writer, leave their reference; `tcp_dial` and `tcp_qclose` destroy a connection that a
retransmission or the state machine holds; and a `tcp_close` that cannot send its FIN after a reset
drops the reference of the state machine again. -/
theorem reference_dropped_twice :
    (∃ t, Machine.run Sys.step (.start fresh) [.dial .sent,.error 113,.error 113,.dialReturns] =
      some t ∧ t.refs.smGets = 1 ∧ t.refs.smDrops = 2 ∧ t.refs.kref.released = 2) ∧
    (∃ t, Machine.run Sys.step (.start fresh) [.dial .sent,resendDue false,.job 0 false true] =
      some t ∧ t.refs.jobs = [⟨.over,0⟩]) ∧
    (∃ t, Machine.run Sys.step (.start fresh) ([.dial .sent,answered,.dialReturns]++sends++
        [resendDue true,.write,.job 0 true true]) = some t ∧ t.refs.jobs = [⟨.over,0⟩]) ∧
    (∃ t, Machine.run Sys.step (.start fresh) [.dial .sent,resendDue false,.job 0 true true,
        .recv ⟨101,.sent⟩ (plain 500 101 (tcpRst ||| tcpAck)),.dialReturns] = some t ∧
      t.refs.kref.released = 1 ∧ t.refs.jobs = [⟨.waiting,0⟩]) ∧
    (∃ t, Machine.run Sys.step (.start fresh) [.listen ⟨false,false,0,0⟩ .sent,.qclose] = some t ∧
      t.refs.kref.released = 1 ∧ t.conn.state = .synReceived ∧ t.refs.smDrops = 0) ∧
    ∃ t, Machine.run Sys.step (.start fresh) ([.dial .sent,answered,.dialReturns]++sends++
        [resendDue false,.job 0 true true,.job 0 true true,.close .sent 0,
          .recv ⟨102,.sent⟩ (plain 501 101 tcpRst),.job 0 false true,.closeGo .nomem 12]) =
      some t ∧ t.refs.smGets = 1 ∧ t.refs.smDrops = 2 := by
  refine ⟨⟨_,rfl,?_⟩,⟨_,rfl,?_⟩,⟨_,rfl,?_⟩,⟨_,rfl,?_⟩,⟨_,rfl,?_⟩,⟨_,rfl,?_⟩⟩ <;> decide

end Vessel.TcpRefs
