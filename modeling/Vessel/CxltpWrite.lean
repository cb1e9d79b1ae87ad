import Vessel.CxltpStream

/-! What the write calls of cxltp report.  A call goes on in rounds, one message each, and the
peer, the allocator and other threads of the connection decide how far it comes. -/
namespace Vessel
namespace Cxltp

/-- What a round of the write loops reads: whether `can_write_payload` finds the ring full, the
type of the package that the slot still has, whether `tcache_alloc` has a buffer, the `shutdown`
flag, and whether the ring is full when `do_write_payload` is tried first. -/
structure Round where
  full : Bool
  slot : Option PackageType
  alloc : Bool
  shutdown : Bool
  refused : Bool

inductive Exit where
  | stop
  | fail
  | publish
deriving DecidableEq, Repr

/-- How a round ends.  A blocking call repeats `do_write_payload` until there is room. -/
def Round.exit (r : Round) (nonblocking : Bool) : Exit :=
  if nonblocking ∧ r.full then .stop
  else if r.slot = some .error then .fail
  else if r.slot = none ∧ ¬r.alloc then .stop
  else if r.shutdown then .fail
  else if nonblocking ∧ r.refused then .stop
  else .publish

inductive Outcome where
  | running
  | returned (n : ℤ)
  | aborted
deriving DecidableEq, Repr

/-- A call so far: the bytes that it has placed in the ring, and whether it has ended. -/
structure Result where
  placed : ℕ
  outcome : Outcome
deriving DecidableEq, Repr

/-- `-ECONNABORTED`, which the source writes as a number. -/
def connAborted : ℤ := -103

def badMsg : ℤ := -74

/-- The loop of `cxltp_write_wait` and of `cxltp_do_write` over the rounds that have come up. -/
def writeLoop : List Round → Call → ℕ → Result
  | rs,k,placed =>
    if k.writelen < k.buf.length then
      match rs with
      | [] => ⟨placed,.running⟩
      | r::rs =>
        match r.exit k.nonblocking with
        | .stop => ⟨placed,.returned k.writelen⟩
        | .fail => ⟨placed,.returned connAborted⟩
        | .publish =>
          let placed := placed+k.clen
          let k := { k with writelen := k.writelen+k.clen }
          if k.writelen = k.buf.length then ⟨placed,.returned k.writelen⟩
          else if k.writelen > k.buf.length then ⟨placed,.returned badMsg⟩
          else writeLoop rs k placed
    else ⟨placed,.aborted⟩

inductive Write where
  | write (buf : List UInt8)
  | tryWrite (buf : List UInt8)
  | writev (iov : List (List UInt8))

/-- The loop that a call enters. -/
def Write.call : Write → Call
  | .write buf => ⟨false,buf,0⟩
  | .tryWrite buf => ⟨true,buf,0⟩
  | .writev iov => ⟨false,gather payloadSize iov,0⟩

def Write.run (w : Write) (rs : List Round) : Result := writeLoop rs w.call 0

/-- A call that has ended returns what it has placed, or no positive number if that is nothing. -/
def Result.Reports (r : Result) : Prop :=
  r.outcome ≠ .aborted ∧
    ∀ n,r.outcome = .returned n → if 0 < r.placed then n = r.placed else n ≤ 0

/-- Nothing keeps the round from placing its message. -/
def Round.Passes (r : Round) (nonblocking : Bool) : Prop :=
  (nonblocking = true → r.full = false ∧ r.refused = false) ∧ r.slot ≠ some .error ∧
    (r.slot = none → r.alloc = true) ∧ r.shutdown = false

/-- The round meets an error package or the shutdown of the connection, and neither a full ring nor
a lack of buffers before that. -/
def Round.Broken (r : Round) (nonblocking : Bool) : Prop :=
  ¬(nonblocking = true ∧ r.full = true) ∧
    (r.slot = some .error ∨ (r.slot = none → r.alloc = true) ∧ r.shutdown = true)

/-- From here on no round is broken that comes up with bytes left to send and after others passed,
the very first of a call apart. -/
def Call.Smooth (k : Call) (rs : List Round) : Prop :=
  ∀ i,k.writelen+i*payloadSize < k.buf.length → 0 < k.writelen+i →
    (∀ r ∈ rs.take i,r.Passes k.nonblocking) → ∀ r ∈ rs[i]?,¬r.Broken k.nonblocking

/-- There is something to send, and it does not break off after the first message. -/
def Write.Smooth (w : Write) (rs : List Round) : Prop := w.call.buf ≠ [] ∧ w.call.Smooth rs

section Loop

variable {k : Call} {rs : List Round}

theorem clen_pos (h : k.writelen < k.buf.length) : 0 < k.clen := by
  have hsize : 0 < payloadSize := by decide
  rw [clen_eq_min]
  omega

theorem writelen_clen_le (h : k.writelen < k.buf.length) : k.writelen+k.clen ≤ k.buf.length := by
  rw [clen_eq_min]
  omega

theorem exit_publish {r : Round} {nb : Bool} : r.exit nb = .publish ↔ r.Passes nb := by
  rcases r with ⟨full,slot,alloc,shutdown,refused⟩
  simp only [Round.exit,Round.Passes]
  grind

theorem exit_fail {r : Round} {nb : Bool} : r.exit nb = .fail ↔ r.Broken nb := by
  rcases r with ⟨full,slot,alloc,shutdown,refused⟩
  simp only [Round.exit,Round.Broken]
  grind

theorem not_broken {r : Round} {nb : Bool} (h : r.Passes nb) : ¬r.Broken nb := by
  rw [← exit_fail,exit_publish.mpr h]
  decide

theorem not_passes {r : Round} {nb : Bool} (h : r.exit nb ≠ .publish) {rs : List Round} {i : ℕ}
    (hi : i ≠ 0) : ¬∀ q ∈ (r::rs).take i,q.Passes nb := by
  obtain ⟨i,rfl⟩ := Nat.exists_eq_succ_of_ne_zero hi
  intro hall
  exact h (exit_publish.mpr (hall r (by simp)))

/-- Behind a message that was placed the rounds are counted on. -/
theorem Call.smooth_cons {r : Round} (hr : r.Passes k.nonblocking) (hclen : k.clen = payloadSize) :
    k.Smooth (r::rs) ↔ Call.Smooth { k with writelen := k.writelen+k.clen } rs := by
  have hsize : 0 < payloadSize := by decide
  constructor
  · intro h i hi hpos hpass
    refine h (i+1) ?_ (by omega) ?_
    · rw [Nat.succ_mul]
      dsimp only at hi
      omega
    · simpa [hr] using hpass
  · intro h i hi hpos hpass
    cases i with
    | zero => simpa using not_broken hr
    | succ i =>
      rw [Nat.succ_mul] at hi
      rw [List.take_succ_cons,List.forall_mem_cons] at hpass
      exact h i (by dsimp only; omega) (by dsimp only; omega) hpass.2

/-- A call within its buffer is aborted by no round, ends after as many rounds as there are bytes
left, returns its bytes or the error code, and just in a smooth one the report is right. -/
theorem writeLoop_spec (h : k.writelen < k.buf.length) (rs : List Round) :
    (writeLoop rs k k.writelen).outcome ≠ .aborted ∧
    (k.buf.length ≤ rs.length+k.writelen → (writeLoop rs k k.writelen).outcome ≠ .running) ∧
    (∀ n,(writeLoop rs k k.writelen).outcome = .returned n →
      n = (writeLoop rs k k.writelen).placed ∨ n = connAborted) ∧
    ((writeLoop rs k k.writelen).Reports ↔ k.Smooth rs) := by
  induction rs generalizing k with
  | nil =>
    rw [writeLoop,if_pos h]
    refine ⟨by simp,fun hle => ?_,by simp,by simp [Result.Reports,Call.Smooth]⟩
    rw [List.length_nil] at hle
    omega
  | cons r rs ih =>
    have hpos := clen_pos h
    have hle := writelen_clen_le h
    rw [writeLoop,if_pos h]
    cases hexit : r.exit k.nonblocking with
    | stop =>
      refine ⟨by simp,by simp,by simp,iff_of_true ?_ fun i _ _ hpass => ?_⟩
      · simp only [Result.Reports]
        grind
      · by_cases hi : i = 0
        · subst hi
          simp [← exit_fail,hexit]
        · exact absurd hpass (not_passes (by simp [hexit]) hi)
    | fail =>
      refine ⟨by simp,by simp,by simp,?_⟩
      have hcode : connAborted < 0 := by decide
      by_cases hstart : k.writelen = 0
      · refine iff_of_true ?_ fun i _ hi hpass => ?_
        · simp only [Result.Reports]
          grind
        · exact absurd hpass (not_passes (by simp [hexit]) (by omega))
      · refine iff_of_false ?_ fun hsmooth => ?_
        · rintro ⟨-,hret⟩
          have := hret _ rfl
          dsimp only at this
          rw [if_pos (by omega)] at this
          omega
        · exact hsmooth 0 (by omega) (by omega) (by simp) r rfl (exit_fail.mp hexit)
    | publish =>
      have hr := exit_publish.mp hexit
      by_cases hend : k.writelen+k.clen = k.buf.length
      · refine ⟨by simp [hend],by simp [hend],by simp [hend],iff_of_true ?_ fun i hi _ _ => ?_⟩
        · simp only [hend,Result.Reports]
          grind
        · obtain rfl : i = 0 := by
            rw [clen_eq_min] at hend
            by_contra hne
            have := Nat.le_mul_of_pos_left payloadSize (Nat.pos_of_ne_zero hne)
            omega
          simpa using not_broken hr
      · have hmore : k.writelen+k.clen < k.buf.length := by omega
        have hnot : ¬k.writelen+k.clen > k.buf.length := by omega
        have hsize : k.clen = payloadSize := by
          rw [clen_eq_min] at hmore ⊢
          omega
        obtain ⟨habort,hends,hret,hiff⟩ := ih (k:={ k with writelen := k.writelen+k.clen }) hmore
        simp only [if_neg hend,if_neg hnot]
        refine ⟨habort,fun hlen => hends ?_,hret,hiff.trans (Call.smooth_cons hr hsize).symm⟩
        rw [List.length_cons] at hlen
        dsimp only
        omega

theorem writeLoop_nil (h : k.buf = []) (rs : List Round) : writeLoop rs k 0 = ⟨0,.aborted⟩ := by
  cases rs <;> simp [writeLoop,h]

end Loop

/-- A call aborts the process just if it has nothing to send, and a call that returns reports its
bytes or the error code.  Just a smooth call reports right; a call with something to send ends after
at most one round for every byte. -/
theorem writes_reported_iff (w : Write) (rs : List Round) :
    ((w.run rs).outcome = .aborted ↔ w.call.buf = []) ∧
    (∀ n,(w.run rs).outcome = .returned n → n = (w.run rs).placed ∨ n = connAborted) ∧
    (w.call.buf.length ≤ rs.length → (w.run rs).outcome ≠ .running) ∧
    ((w.run rs).Reports ↔ w.Smooth rs) := by
  have hzero : w.call.writelen = 0 := by cases w <;> rfl
  by_cases hbuf : w.call.buf = []
  · have hrun : w.run rs = ⟨0,.aborted⟩ := writeLoop_nil hbuf rs
    refine ⟨by simp [hrun,hbuf],by simp [hrun],by simp [hrun],iff_of_false ?_ fun hs => hs.1 hbuf⟩
    simp [hrun,Result.Reports]
  · have hlt : w.call.writelen < w.call.buf.length := by
      rw [hzero]
      exact List.length_pos_iff.mpr hbuf
    have hspec := writeLoop_spec hlt rs
    rw [hzero] at hspec
    obtain ⟨habort,hends,hret,hiff⟩ := hspec
    exact ⟨iff_of_false habort hbuf,hret,hends,hiff.trans (and_iff_right hbuf).symm⟩

/-- A round in which nothing stands in the way. -/
def Round.free : Round := ⟨false,none,true,false,false⟩

/-- Nothing to send, a first vector that is longer than a message, and a connection that is shut
down after the first message of two. -/
theorem writes_misreported :
    (∀ rs,(Write.write []).run rs = ⟨0,.aborted⟩ ∧ (Write.tryWrite []).run rs = ⟨0,.aborted⟩) ∧
    (∀ v : List UInt8,payloadSize < v.length → ∀ iov rs,
      (Write.writev (v::iov)).run rs = ⟨0,.aborted⟩) ∧
    ∀ b : UInt8,(Write.tryWrite (List.replicate (payloadSize+1) b)).run
      [.free,{ Round.free with shutdown := true }] = ⟨payloadSize,.returned connAborted⟩ := by
  refine ⟨fun rs => ⟨writeLoop_nil rfl rs,writeLoop_nil rfl rs⟩,fun v hv iov rs => ?_,fun b => ?_⟩
  · have hnone : gather payloadSize (v::iov) = [] := by rw [gather,if_pos (.inr hv)]
    exact writeLoop_nil hnone rs
  · have hclen : Call.clen ⟨true,List.replicate (payloadSize+1) b,0⟩ = payloadSize := by
      simp [clen_eq_min]
    simp [Write.run,Write.call,writeLoop,hclen,Round.exit,Round.free]

end Cxltp
end Vessel
