import Vessel.BitWords
import Vessel.IasSlots

/-! `ias_init`: the cores that are reserved before any process is attached, and what the attaches
make of them.  Here the allowed cores are an arbitrary set. -/
namespace Vessel.Ias

/-- The second argument of `bitmap_init` is the number of bits and the third the state; the call
passes `true` and `NCPU`. -/
def iasInit (ncpu : ℕ) (reserved allowed : BitWords) : BitWords :=
  let reserved := reserved.init true.toNat (ncpu ≠ 0)
  reserved.xor reserved allowed ncpu

/-- `ias_reserved_cores` is zero when the program starts. -/
def initialReserved (ncpu : ℕ) (allowed : BitWords) : Bitmap :=
  (iasInit ncpu (fun _ => 0) allowed).bits

theorem initialReserved_apply {ncpu i : ℕ} (allowed : BitWords) (hi : i < ncpu) :
    initialReserved ncpu allowed i = if i < 64 then !allowed.bits i else allowed.bits i := by
  have hpos : (ncpu ≠ 0) = True := eq_true (by omega)
  have hone : 64*BitWords.longSize true.toNat = 64 := rfl
  rw [initialReserved,iasInit,BitWords.bits_xor,if_pos (BitWords.lt_longSize hi),
    BitWords.bits_init,hone]
  split
  · simp [hpos]
  · simp [BitWords.bits]

/-- Every core outside of the allowed set is reserved from the start if and only if the bitmap has
one word. -/
theorem initialReserved_complement_iff (ncpu : ℕ) (allowed : BitWords) :
    (∀ i < ncpu, initialReserved ncpu allowed i = !allowed.bits i) ↔ ncpu ≤ 64 := by
  constructor
  · intro h
    by_contra hlt
    have h64 := h 64 (by omega)
    rw [initialReserved_apply allowed (by omega),if_neg (by decide)] at h64
    simp at h64
  · intro hle i hi
    rw [initialReserved_apply allowed hi,if_pos (by omega)]

/-! ### Reservations stay inside -/

/-- What is not allowed is reserved, and no process has it. -/
structure Inside (m : Cpus) (allowed : Bitmap) (own reserved : Bitmap) : Prop where
  outside : ∀ i < m.ncpu, allowed i = false → reserved i = true
  own : ∀ i, own i = true → i < m.ncpu ∧ allowed i = true

section Loop

variable {m : Cpus} {allowed own reserved : Bitmap} {core : ℕ}

theorem Inside.set (h : Inside m allowed own reserved) (hlt : core < m.ncpu)
    (hcore : allowed core = true) : Inside m allowed (own.set core) (reserved.set core) where
  outside i hi hna := Bitmap.set_eq_true.mpr (Or.inr (h.outside i hi hna))
  own i hi := by
    rcases Bitmap.set_eq_true.mp hi with rfl | hi
    · exact ⟨hlt,hcore⟩
    · exact h.own i hi

theorem Inside.of_free (h : Inside m allowed own reserved) (hlt : core < m.ncpu)
    (hcore : reserved core = false) : allowed core = true := by
  by_contra hna
  rw [h.outside core hlt (Bool.eq_false_iff.mpr hna)] at hcore
  contradiction

theorem Inside.reserve (hclosed : m.noht = false → ∀ i < m.ncpu, allowed i = true →
      m.sibling i < m.ncpu ∧ allowed (m.sibling i) = true) (k : ℕ)
    (h : Inside m allowed own reserved) :
    Inside m allowed (Ias.reserve m k own reserved).2.1 (Ias.reserve m k own reserved).2.2 := by
  induction k generalizing own reserved with
  | zero => exact h
  | succ k ih =>
    rw [Ias.reserve]
    rcases reserved.findNextCleared_spec m.ncpu 0 with hfull | ⟨-,hlt,hcore⟩
    · rw [if_pos hfull]
      exact h
    generalize reserved.findNextCleared m.ncpu 0 = core at hlt hcore
    have hallowed := h.of_free hlt hcore
    rw [if_neg (by omega)]
    cases hno : m.noht with
    | true => exact ih (h.set hlt hallowed)
    | false =>
      obtain ⟨hsib,hsib'⟩ := hclosed hno core hlt hallowed
      exact ih ((h.set hlt hallowed).set hsib hsib')

theorem Inside.giveBack {own' : Bitmap} (h : Inside m allowed own reserved)
    (hown : ∀ i, own' i = true → i < m.ncpu ∧ allowed i = true) :
    Inside m allowed own (reserved.xor own') where
  outside i hi hna := by
    have hnot : own' i = false := by
      by_contra hb
      rw [(hown i (Bool.eq_true_of_not_eq_false hb)).2] at hna
      contradiction
    rw [Bitmap.xor,hnot,h.outside i hi hna]
    rfl
  own := h.own

end Loop

section Runs

variable {m : Cpus} {allowed : Bitmap} {s t : State} {e : Event}

/-- All attached processes have allowed cores only. -/
def AllInside (m : Cpus) (allowed : Bitmap) (s : State) : Prop :=
  (∀ i < m.ncpu, allowed i = false → s.reserved i = true) ∧
    ∀ d ∈ s.allProcs, ∀ i, d.reservedCores i = true → i < m.ncpu ∧ allowed i = true

theorem step_allInside (hclosed : m.noht = false → ∀ i < m.ncpu, allowed i = true →
      m.sibling i < m.ncpu ∧ allowed (m.sibling i) = true)
    (hs : AllInside m allowed s) (h : step m s e = some t) : AllInside m allowed t := by
  obtain ⟨hres,hown⟩ := hs
  rcases step_cases h with ⟨proc,guaranteed,addr,-,-,rfl⟩ | ⟨d,hd,-,rfl⟩
  · have hloop := Inside.reserve hclosed (rounds m guaranteed)
      (⟨hres,fun i hi => by simp at hi⟩ : Inside m allowed Bitmap.empty s.reserved)
    have hout := iasAttach_attached m s proc guaranteed addr
    generalize iasAttach m s proc guaranteed addr = r at hout
    cases hout with
    | tooMany | odd | noMem => exact ⟨hres,hown⟩
    | failReserve _ heq =>
      rw [heq] at hloop
      exact ⟨(hloop.giveBack hloop.own).outside,hown⟩
    | ok _ _ _ heq =>
      rw [heq] at hloop
      refine ⟨hloop.outside,fun d hd => ?_⟩
      rcases List.mem_cons.mp hd with rfl | hd
      · exact hloop.own
      · exact hown d hd
  · have hin : Inside m allowed Bitmap.empty s.reserved := ⟨hres,fun i hi => by simp at hi⟩
    exact ⟨(hin.giveBack (hown d hd)).outside,
      fun d' hd' => hown d' (List.mem_of_mem_eraseP hd')⟩

end Runs

/-! ### A sibling that is not allowed -/

section Reach

variable {m : Cpus} {reserved : Bitmap} {i : ℕ}

/-- The loop comes to every core that is free, unless it takes it with its sibling. -/
theorem reserve_reaches (own : Bitmap) (hht : m.noht = false) (hi : i < m.ncpu)
    (hfree : reserved i = false) (hsib : reserved (m.sibling i) = true)
    (hpair : ∀ c < m.ncpu, reserved c = false → m.sibling (m.sibling c) = c) :
    ∃ k ≤ i+1, (Ias.reserve m k own reserved).1 = true ∧
      (Ias.reserve m k own reserved).2.1 (m.sibling i) = true := by
  -- the first free core moves up to `i`
  suffices h : ∃ k ≤ i+1 - reserved.findNextCleared m.ncpu 0,
      (Ias.reserve m k own reserved).1 = true ∧
      (Ias.reserve m k own reserved).2.1 (m.sibling i) = true by
    obtain ⟨k,hk,h⟩ := h
    exact ⟨k,by omega,h⟩
  generalize hn : i - reserved.findNextCleared m.ncpu 0 = n
  induction n using Nat.strong_induction_on generalizing own reserved with
  | _ n ih =>
    have hle := Bitmap.findNextCleared_le (Nat.zero_le i) hi hfree
    rcases reserved.findNextCleared_spec m.ncpu 0 with hfull | ⟨-,hlt,hcore⟩
    · omega
    have hleast : ∀ j < m.ncpu, reserved j = false → reserved.findNextCleared m.ncpu 0 ≤ j :=
      fun j hj hb => Bitmap.findNextCleared_le (Nat.zero_le j) hj hb
    have hround : ∀ k, Ias.reserve m (k+1) own reserved =
        Ias.reserve m k ((own.set (reserved.findNextCleared m.ncpu 0)).set
            (m.sibling (reserved.findNextCleared m.ncpu 0)))
          ((reserved.set (reserved.findNextCleared m.ncpu 0)).set
            (m.sibling (reserved.findNextCleared m.ncpu 0))) := by
      intro k
      rw [Ias.reserve,if_neg (by omega),hht]
      rfl
    generalize reserved.findNextCleared m.ncpu 0 = core at *
    by_cases heq : core = i
    · refine ⟨1,by omega,?_⟩
      rw [hround,heq]
      exact ⟨rfl,Bitmap.set_self⟩
    have hne : i ≠ m.sibling core := by
      rintro rfl
      rw [hpair core hlt hcore,hcore] at hsib
      contradiction
    have hmono : ∀ j, ((reserved.set core).set (m.sibling core)) j = false →
        j ≠ core ∧ reserved j = false := by
      intro j hj
      rw [← Bool.not_eq_true,Bitmap.set_eq_true,Bitmap.set_eq_true] at hj
      exact ⟨fun h => hj (Or.inr (Or.inl h)),
        Bool.eq_false_iff.mpr fun h => hj (Or.inr (Or.inr h))⟩
    have hfree' : ((reserved.set core).set (m.sibling core)) i = false := by
      rw [Bitmap.set_of_ne hne,Bitmap.set_of_ne (Ne.symm heq)]
      exact hfree
    have hsib' : ((reserved.set core).set (m.sibling core)) (m.sibling i) = true :=
      Bitmap.set_eq_true.mpr (Or.inr (Bitmap.set_eq_true.mpr (Or.inr hsib)))
    have hnext : core < ((reserved.set core).set (m.sibling core)).findNextCleared m.ncpu 0 := by
      rcases ((reserved.set core).set (m.sibling core)).findNextCleared_spec m.ncpu 0 with h | ⟨-,h,hb⟩
      · omega
      · obtain ⟨hne,hb⟩ := hmono _ hb
        have := hleast _ h hb
        omega
    have hle' := Bitmap.findNextCleared_le (Nat.zero_le i) hi hfree'
    obtain ⟨k,hk,hend⟩ := ih _ (by omega) ((own.set core).set (m.sibling core)) hfree' hsib'
      (fun c hc hb => hpair c hc (hmono c hb).2) rfl
    refine ⟨k+1,by omega,?_⟩
    rw [hround]
    exact hend

theorem attach_pairs {m : Cpus} {own reserved reserved' : Bitmap} {k : ℕ} (hht : m.noht = false)
    (hk : k ≤ 64) (hloop : reserve m k Bitmap.empty reserved = (true,own,reserved')) :
    ∃ s, step m (start reserved) (.attach 0 (BitVec.ofNat 32 (2*k)) (some 0)) = some s ∧
      s.allProcs = [⟨0,0,0,own⟩] := by
  have hnat : (BitVec.ofNat 32 (2*k)).toNat = 2*k := by
    rw [BitVec.toNat_ofNat]
    omega
  have heven : BitVec.ofNat 32 (2*k) % 2#32 = 0#32 := by
    rw [BitVec.toNat_eq,BitVec.toNat_umod,hnat]
    exact Nat.mul_mod_right 2 k
  have hrounds : rounds m (BitVec.ofNat 32 (2*k)) = k := by
    rw [rounds,hht,toInt_toNat,hnat]
    simp only [Bool.false_eq_true,if_false]
    split <;> omega
  refine ⟨_,rfl,?_⟩
  simp [iasAttach,start,iasNproc,heven,hrounds,hloop,freeIndex]

end Reach

theorem starts_right_iff (m : Cpus) (allowed : BitWords)
    (hpair : m.noht = false → ∀ i < m.ncpu, allowed.bits i = true →
      m.sibling i < m.ncpu ∧ m.sibling (m.sibling i) = i) :
    ((∀ i < m.ncpu, initialReserved m.ncpu allowed i = !allowed.bits i) ∧
      ∀ es s, Machine.run (step m) (start (initialReserved m.ncpu allowed)) es = some s →
        ∀ d ∈ s.allProcs, ∀ i, d.reservedCores i = true → i < m.ncpu ∧ allowed.bits i = true) ↔
    m.ncpu ≤ 64 ∧
      (m.noht = true ∨
        ∀ i < m.ncpu, allowed.bits i = true → allowed.bits (m.sibling i) = true) := by
  constructor
  · rintro ⟨hcompl,hinside⟩
    have hle := (initialReserved_complement_iff m.ncpu allowed).mp hcompl
    refine ⟨hle,?_⟩
    rw [or_iff_not_imp_left,Bool.not_eq_true]
    intro hht i hi hai
    by_contra hna
    -- a process that takes `i` gets the sibling as well
    obtain ⟨hsib,-⟩ := hpair hht i hi hai
    have hfree : initialReserved m.ncpu allowed i = false := by rw [hcompl i hi,hai]; rfl
    have htaken : initialReserved m.ncpu allowed (m.sibling i) = true := by
      rw [hcompl _ hsib,Bool.eq_false_iff.mpr hna]
      rfl
    have hpaired : ∀ c < m.ncpu, initialReserved m.ncpu allowed c = false →
        m.sibling (m.sibling c) = c := by
      intro c hc hfree
      rw [hcompl c hc,Bool.not_eq_false'] at hfree
      exact (hpair hht c hc hfree).2
    obtain ⟨k,hk,hok,hown⟩ := reserve_reaches Bitmap.empty hht hi hfree htaken hpaired
    obtain ⟨s,hstep,hprocs⟩ := attach_pairs hht (by omega) (Prod.ext hok rfl)
    have hrun : Machine.run (step m) (start (initialReserved m.ncpu allowed))
        [.attach 0 (BitVec.ofNat 32 (2*k)) (some 0)] = some s := by
      rw [Machine.run,hstep]
      rfl
    have hd : ∀ d ∈ s.allProcs, _ := hinside _ s hrun
    rw [hprocs] at hd
    exact hna (hd _ List.mem_cons_self (m.sibling i) hown).2
  · rintro ⟨hle,hclosed⟩
    have hcompl := (initialReserved_complement_iff m.ncpu allowed).mpr hle
    refine ⟨hcompl,fun es s hrun => ?_⟩
    have hclosed' : m.noht = false → ∀ i < m.ncpu, allowed.bits i = true →
        m.sibling i < m.ncpu ∧ allowed.bits (m.sibling i) = true := by
      intro hht i hi hai
      rcases hclosed with hno | hclosed
      · rw [hht] at hno
        contradiction
      · exact ⟨(hpair hht i hi hai).1,hclosed i hi hai⟩
    have hstart : AllInside m allowed.bits (start (initialReserved m.ncpu allowed)) := by
      refine ⟨fun i hi hna => ?_,fun d hd => ?_⟩
      · change initialReserved m.ncpu allowed i = true
        rw [hcompl i hi,hna]
        rfl
      · simp [start] at hd
    exact (Machine.run_keeps (step_allInside hclosed') hstart hrun).2

/-- `ncpu` hyperthreads, where `i` and `i ^ 1` are siblings. -/
def neighbours (ncpu : ℕ) : Cpus := ⟨ncpu,false,fun i => i ^^^ 1⟩

theorem starts_right_iff_quad :
    (∀ i < 4, initialReserved 4 (fun _ => 15) i = !BitWords.bits (fun _ => 15) i) ∧
      ∀ es s, Machine.run (step (neighbours 4)) (start (initialReserved 4 fun _ => 15)) es = some s →
        ∀ d ∈ s.allProcs, ∀ i, d.reservedCores i = true →
          i < 4 ∧ BitWords.bits (fun _ => 15) i = true :=
  (starts_right_iff (neighbours 4) (fun _ => 15) (by decide)).mpr (by decide)

/-- With 128 cores of which four are allowed, core 64 is not reserved, and an attach takes it.
And where core 0 is allowed and its sibling is not, an attach takes both. -/
theorem starts_wrong :
    (∃ s ∈ Machine.run (step (neighbours 128))
        (start (initialReserved 128 fun k => if k = 0 then 15 else 0)) [.attach 1 6 (some 10)],
      initialReserved 128 (fun k => if k = 0 then 15 else 0) 64 = false ∧
        BitWords.bits (fun k => if k = 0 then 15 else 0) 64 = false ∧
        ∃ d ∈ s.allProcs, d.reservedCores 64 = true) ∧
    ∃ s ∈ Machine.run (step (neighbours 4)) (start (initialReserved 4 fun _ => 13))
        [.attach 1 2 (some 10)],
      BitWords.bits (fun _ => 13) 1 = false ∧ ∃ d ∈ s.allProcs, d.reservedCores 1 = true := by
  decide +kernel

end Vessel.Ias
