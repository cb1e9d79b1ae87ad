import Vessel.Machine
import Vessel.Tally

/-! The count of running kthreads (`kthread.c`).  `kthread_park` looks at `runningks`, takes itself
off the count, looks at what is left and takes the step back if a voluntary park leaves too few. -/
namespace Vessel
namespace KthreadPark

open Tally

/-- Where a kthread is in `kthread_wait_to_attach` and `kthread_park`. -/
inductive Pos where
  | attaching
  | running
  | reading
  | leaving (voluntary : Bool)
  | undoing
  | parked (voluntary : Bool)
  deriving DecidableEq

structure Sys (κ : Type) where
  runningks : BitVec 32
  pos : κ → Pos

variable {κ : Type} [DecidableEq κ]

def Sys.init : Sys κ := ⟨0,fun _ => .attaching⟩

def Sys.setPos (s : Sys κ) (i : κ) (p : Pos) : Sys κ :=
  { s with pos := Function.update s.pos i p }

/-- `kthread_park` up to its first atomic access; an involuntary one does not read the count. -/
def Sys.park (s : Sys κ) (i : κ) (voluntary : Bool) : Option (Sys κ) :=
  if s.pos i = .running then some (s.setPos i (if voluntary then .reading else .leaving false))
  else none

/-- The next atomic access.  The count is an `int` and `spinks` is unsigned, so that C compares
them as unsigned numbers. -/
def Sys.act (spinks : BitVec 32) (s : Sys κ) (i : κ) : Option (Sys κ) :=
  match s.pos i with
  | .attaching => some ({ s with runningks := s.runningks+1 }.setPos i .running)
  | .running => none
  | .reading =>
    some (s.setPos i (if s.runningks.ule spinks then .running else .leaving true))
  | .leaving voluntary =>
    let remainingKs := s.runningks-1
    some ({ s with runningks := remainingKs }.setPos i
      (if voluntary && remainingKs.ult spinks then .undoing else .parked voluntary))
  | .undoing => some ({ s with runningks := s.runningks+1 }.setPos i .running)
  | .parked _ => some ({ s with runningks := s.runningks+1 }.setPos i .running)

inductive Event (κ : Type) where
  | park (i : κ) (voluntary : Bool)
  | act (i : κ)

def step (spinks : BitVec 32) (s : Sys κ) : Event κ → Option (Sys κ)
  | .park i voluntary => s.park i voluntary
  | .act i => s.act spinks i

/-- The kthreads that `runningks` counts. -/
def Pos.counted : Pos → Bool
  | .running | .reading | .leaving _ => true
  | _ => false

/-- Attached, and not between a park that was not taken back and the end of it. -/
def Pos.awake : Pos → Bool
  | .attaching | .parked _ => false
  | _ => true

def Pos.takingBack : Pos → Bool
  | .undoing => true
  | _ => false

variable [Fintype κ] {spinks : BitVec 32} {s t : Sys κ} {i : κ}

omit [DecidableEq κ] in
theorem tally_awake (pos : κ → Pos) :
    tally Pos.awake pos = tally Pos.counted pos+tally Pos.takingBack pos :=
  tally_add fun p => by cases p <;> rfl

def Counts (s : Sys κ) : Prop := s.runningks.toNat = tally Pos.counted s.pos

section Steps

-- there are at most `NCPU` kthreads, and each adds one to an `int`
variable (hfits : Fintype.card κ < 2^31)

include hfits

omit [DecidableEq κ] in
theorem tally_counted_lt (pos : κ → Pos) : tally Pos.counted pos < 2^31 :=
  tally_le_card.trans_lt hfits

theorem counts_inc (h : Counts s) (hi : (s.pos i).counted = false) :
    Counts ({ s with runningks := s.runningks+1 }.setPos i .running) := by
  have hupd : tally Pos.counted (Function.update s.pos i .running)+(s.pos i).counted.toNat =
      tally Pos.counted s.pos+1 := tally_update
  have hlt := tally_counted_lt hfits (Function.update s.pos i .running)
  rw [Counts] at h
  simp only [hi,Bool.toNat_false] at hupd
  simp only [Counts,Sys.setPos,BitVec.toNat_add,h,show (1 : BitVec 32).toNat = 1 from rfl]
  omega

theorem counts_dec (h : Counts s) (hi : (s.pos i).counted = true) {p : Pos}
    (hp : p.counted = false) : Counts ({ s with runningks := s.runningks-1 }.setPos i p) := by
  have hupd : tally Pos.counted (Function.update s.pos i p)+(s.pos i).counted.toNat =
      tally Pos.counted s.pos+p.counted.toNat := tally_update
  have hlt := tally_counted_lt hfits s.pos
  rw [Counts] at h
  simp only [hi,hp,Bool.toNat_false,Bool.toNat_true] at hupd
  simp only [Counts,Sys.setPos,BitVec.toNat_sub,h,show (1 : BitVec 32).toNat = 1 from rfl]
  omega

omit hfits in
theorem counts_setPos (h : Counts s) {p : Pos} (hp : p.counted = (s.pos i).counted) :
    Counts (s.setPos i p) := by
  have hupd : tally Pos.counted (Function.update s.pos i p)+(s.pos i).counted.toNat =
      tally Pos.counted s.pos+p.counted.toNat := tally_update
  rw [hp] at hupd
  exact h.trans (Nat.add_right_cancel hupd).symm

theorem counts_step {e : Event κ} (h : Counts s) (hstep : step spinks s e = some t) :
    Counts t := by
  cases e with
  | park i voluntary =>
    simp only [step,Sys.park,Option.ite_none_right_eq_some,Option.some.injEq] at hstep
    obtain ⟨hpos,rfl⟩ := hstep
    refine counts_setPos h ?_
    rw [hpos]
    cases voluntary <;> rfl
  | act i =>
    simp only [step,Sys.act] at hstep
    split at hstep <;> rename_i hpos
    · exact Option.some.inj hstep ▸ counts_inc hfits h (by rw [hpos]; rfl)
    · cases hstep
    · refine Option.some.inj hstep ▸ counts_setPos h ?_
      rw [hpos]
      split_ifs <;> rfl
    · refine Option.some.inj hstep ▸ counts_dec hfits h (by rw [hpos]; rfl) ?_
      split_ifs <;> rfl
    · exact Option.some.inj hstep ▸ counts_inc hfits h (by rw [hpos]; rfl)
    · exact Option.some.inj hstep ▸ counts_inc hfits h (by rw [hpos]; rfl)

omit [DecidableEq κ] in
theorem Counts.toInt (h : Counts s) : s.runningks.toInt = tally Pos.counted s.pos := by
  have hlt := tally_counted_lt hfits s.pos
  rw [Counts] at h
  rw [BitVec.toInt_eq_toNat_cond,if_pos (by omega),h]

end Steps

omit [DecidableEq κ] in
theorem counts_init : Counts (Sys.init : Sys κ) := by
  simp [Counts,Sys.init,tally,Pos.counted]

/-- In every run the count is that of the kthreads awake without those that take a park back, and
a voluntary park that stands has left `spinks` kthreads running. -/
theorem spinning_preserved (hfits : Fintype.card κ < 2^31) (spinks : BitVec 32)
    (es : List (Event κ)) (ht : Machine.run (step spinks) Sys.init es = some t) :
    t.runningks.toInt = tally Pos.awake t.pos-tally Pos.takingBack t.pos ∧
      ∀ i u,step spinks t (.act i) = some u → t.pos i = .leaving true → u.pos i = .parked true →
        (spinks.toNat : ℤ) ≤ u.runningks.toInt := by
  have hcounts : Counts t := Machine.run_keeps (counts_step hfits) counts_init ht
  constructor
  · rw [hcounts.toInt hfits,tally_awake]
    omega
  · intro i u hu hpos hparked
    have hafter : Counts u := counts_step hfits hcounts hu
    rw [hafter.toInt hfits,← hafter]
    simp only [step,Sys.act,hpos,Option.some.injEq] at hu
    subst hu
    simp only [Sys.setPos,Function.update_self] at hparked ⊢
    split_ifs at hparked with hlow
    exact Int.ofNat_le.mpr (by simpa [BitVec.ult,-BitVec.toNat_sub] using hlow)

/-- Two kthreads that both see two running, with one to be kept: the second takes its park back. -/
theorem spinning_preserved_race : ∃ t ∈ Machine.run (step 1) (Sys.init : Sys (Fin 2))
      [.act 0,.act 1,.park 0 true,.park 1 true,.act 0,.act 1,.act 0,.act 1],
    (t.pos 0 = .parked true ∧ t.pos 1 = .undoing) ∧
      t.runningks.toInt = tally Pos.awake t.pos-tally Pos.takingBack t.pos := by
  obtain ⟨t,ht,hpos⟩ : ∃ t ∈ Machine.run (step 1) (Sys.init : Sys (Fin 2))
      [.act 0,.act 1,.park 0 true,.park 1 true,.act 0,.act 1,.act 0,.act 1],
      t.pos 0 = .parked true ∧ t.pos 1 = .undoing := by decide +kernel
  exact ⟨t,ht,hpos,(spinning_preserved (by decide) 1 _ ht).1⟩

end KthreadPark
end Vessel
