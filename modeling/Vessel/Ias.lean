import Vessel.Bitmap
import Mathlib.Algebra.Group.Nat.Defs

/-! Core reservations of the interference-aware policy (`iokernel/ias.c`).
A process that is attached gets its guaranteed cores, in pairs of siblings unless hyperthreads
are off; failure and detaching give them back by an exclusive or. -/
namespace Vessel.Ias

/-- `NCPU`, `cfg.noht` and `sched_siblings`. -/
structure Cpus where
  ncpu : ℕ
  noht : Bool
  sibling : ℕ → ℕ

/-- The machine with `sched_allowed_cores`.  Siblings come in pairs, and both or none of them are
allowed. -/
structure Platform extends Cpus where
  allowed : Bitmap
  sibling_lt : ∀ i < ncpu, sibling i < ncpu
  sibling_sibling : ∀ i < ncpu, sibling (sibling i) = i
  sibling_ne : ∀ i < ncpu, sibling i ≠ i
  allowed_sibling : ∀ i < ncpu, allowed (sibling i) = allowed i

instance : Coe Platform Cpus := ⟨Platform.toCpus⟩

/-- `struct ias_data`: the address of the block, the process, `idx`, and the reservation. -/
structure Data where
  addr : ℕ
  proc : ℕ
  idx : ℕ
  reservedCores : Bitmap

/-- `all_procs`, `ias_reserved_cores`, `ias_procs` with `ias_procs_nr`, and `cores`. -/
structure State where
  allProcs : List Data
  reserved : Bitmap
  procs : ℕ → Option ℕ
  procsNr : ℕ
  cores : ℕ → Option ℕ

def iasNproc : ℕ := 32

inductive Ret
  | ok
  | tooMany
  | odd
  | noMem
  | failReserve
  deriving DecidableEq

/-- The loop that reserves cores: whether it ended well, the cores of the process, and all reserved
cores. -/
def reserve (m : Cpus) : (rounds : ℕ) → (own reserved : Bitmap) → Bool × Bitmap × Bitmap
  | 0,own,reserved => (true,own,reserved)
  | rounds+1,own,reserved =>
    let core := reserved.findNextCleared m.ncpu 0
    if core = m.ncpu then (false,own,reserved)
    else if m.noht then reserve m rounds (own.set core) (reserved.set core)
    else reserve m rounds ((own.set core).set (m.sibling core))
      ((reserved.set core).set (m.sibling core))

/-- How often the loop `while (i > 0)` runs, where `i` is an `int`. -/
def rounds (m : Cpus) (guaranteed : BitVec 32) : ℕ :=
  if m.noht then guaranteed.toInt.toNat else (guaranteed.toInt.toNat+1)/2

/-- The first free entry of `ias_procs`. -/
def freeIndex (s : State) : ℕ :=
  ((List.range s.procsNr).find? fun i => (s.procs i).isNone).getD s.procsNr

/-- `addr` is what `malloc` returned. -/
def iasAttach (m : Cpus) (s : State) (proc : ℕ) (guaranteed : BitVec 32) (addr : Option ℕ) :
    State × Ret :=
  if iasNproc ≤ s.procsNr then (s,.tooMany)
  else if !m.noht && guaranteed % 2 ≠ 0 then (s,.odd)
  else match addr with
  | none => (s,.noMem)
  | some addr =>
    let (ok,own,reserved) := reserve m (rounds m guaranteed) Bitmap.empty s.reserved
    if ok then
      let idx := freeIndex s
      ({ s with
         allProcs := ⟨addr,proc,idx,own⟩::s.allProcs
         reserved := reserved
         procs := Function.update s.procs idx (some addr)
         procsNr := max s.procsNr (idx+1) },.ok)
    else
      let listed := ⟨addr,proc,0,own⟩::s.allProcs
      ({ s with
         allProcs := listed.eraseP fun d => d.addr = addr
         reserved := reserved.xor own },.failReserve)

def iasDetach (s : State) (d : Data) : State :=
  { allProcs := s.allProcs.eraseP fun d' => d'.addr = d.addr
    reserved := s.reserved.xor d.reservedCores
    procs := Function.update s.procs d.idx none
    procsNr := if d.idx = s.procsNr then s.procsNr-1 else s.procsNr
    cores := fun i => if s.cores i = some d.addr then none else s.cores i }

/-- The reserved cores are those that are not allowed and those of the attached processes, and no
core is reserved twice; a process has both cores of a pair, unless hyperthreads are off. -/
structure Reserved (m : Platform) (s : State) : Prop where
  cover : ∀ i < m.ncpu, s.reserved i = true ↔
    m.allowed i = false ∨ ∃ d ∈ s.allProcs, d.reservedCores i = true
  disjoint : s.allProcs.Pairwise fun d d' =>
    ∀ i < m.ncpu, ¬(d.reservedCores i = true ∧ d'.reservedCores i = true)
  paired : m.noht = false → ∀ d ∈ s.allProcs, ∀ i < m.ncpu,
    d.reservedCores (m.sibling i) = d.reservedCores i

/-! ### The loop -/

/-- The loop has added `own` to the cores `old` that were reserved before. -/
structure Grown (m : Platform) (old own reserved : Bitmap) : Prop where
  union : ∀ i, reserved i = (old i || own i)
  inside : ∀ i, own i = true → i < m.ncpu ∧ old i = false
  paired : m.noht = false → ∀ i < m.ncpu, own (m.sibling i) = own i

section Loop

variable {m : Platform} {old own reserved : Bitmap} {core : ℕ}

theorem grown_empty (m : Platform) (old : Bitmap) : Grown m old Bitmap.empty old where
  union i := by simp
  inside i h := by simp at h
  paired _ i _ := rfl

theorem Grown.fresh (h : Grown m old own reserved) (hcore : reserved core = false) :
    old core = false ∧ own core = false := by
  rw [h.union] at hcore
  exact Bool.or_eq_false_iff.mp hcore

theorem Grown.set (h : Grown m old own reserved) (hno : m.noht = true) (hlt : core < m.ncpu)
    (hcore : reserved core = false) : Grown m old (own.set core) (reserved.set core) where
  union i := by
    by_cases hi : i = core
    · subst hi
      simp
    · rw [Bitmap.set_of_ne hi,Bitmap.set_of_ne hi,h.union]
  inside i hi := by
    rcases Bitmap.set_eq_true.mp hi with rfl | hi
    · exact ⟨hlt,(h.fresh hcore).1⟩
    · exact h.inside i hi
  paired hht := by
    rw [hno] at hht
    contradiction

theorem Grown.sibling_fresh (h : Grown m old own reserved) (hht : m.noht = false)
    (hold : ∀ i < m.ncpu, old (m.sibling i) = old i) (hlt : core < m.ncpu)
    (hcore : reserved core = false) : reserved (m.sibling core) = false := by
  rw [h.union,hold core hlt,h.paired hht core hlt,← h.union]
  exact hcore

theorem Grown.setPair (h : Grown m old own reserved) (hht : m.noht = false)
    (hold : ∀ i < m.ncpu, old (m.sibling i) = old i) (hlt : core < m.ncpu)
    (hcore : reserved core = false) :
    Grown m old ((own.set core).set (m.sibling core)) ((reserved.set core).set (m.sibling core)) where
  union i := by
    by_cases hs : i = m.sibling core
    · rw [hs,Bitmap.set_self,Bitmap.set_self,Bool.or_true]
    rw [Bitmap.set_of_ne hs,Bitmap.set_of_ne hs]
    by_cases hi : i = core
    · rw [hi,Bitmap.set_self,Bitmap.set_self,Bool.or_true]
    · rw [Bitmap.set_of_ne hi,Bitmap.set_of_ne hi,h.union]
  inside i hi := by
    rcases Bitmap.set_eq_true.mp hi with rfl | hi
    · exact ⟨m.sibling_lt core hlt,(h.fresh (h.sibling_fresh hht hold hlt hcore)).1⟩
    rcases Bitmap.set_eq_true.mp hi with rfl | hi
    · exact ⟨hlt,(h.fresh hcore).1⟩
    · exact h.inside i hi
  paired _ i hi := by
    -- the sibling map swaps the two cores of a pair
    have hswap : m.sibling i = m.sibling core ↔ i = core := by
      constructor
      · intro heq
        rw [← m.sibling_sibling i hi,heq,m.sibling_sibling core hlt]
      · intro heq
        rw [heq]
    have hswap' : m.sibling i = core ↔ i = m.sibling core := by
      constructor
      · intro heq
        rw [← heq,m.sibling_sibling i hi]
      · intro heq
        rw [heq,m.sibling_sibling core hlt]
    rw [Bool.eq_iff_iff,Bitmap.set_eq_true,Bitmap.set_eq_true,Bitmap.set_eq_true,Bitmap.set_eq_true,
      hswap,hswap',h.paired hht i hi]
    tauto

/-- How many cores a round reserves. -/
def perRound (m : Cpus) : ℕ := if m.noht then 1 else 2

/-- The loop adds cores that were free, as many as it says if it ends well. -/
theorem reserve_grown (hold : m.noht = false → ∀ i < m.ncpu, old (m.sibling i) = old i) (k : ℕ) :
    ∀ {own reserved}, Grown m old own reserved →
      Grown m old (reserve m k own reserved).2.1 (reserve m k own reserved).2.2 ∧
        ((reserve m k own reserved).1 = true →
          (reserve m k own reserved).2.1.popcount m.ncpu =
            own.popcount m.ncpu + k*perRound m) := by
  induction k with
  | zero =>
    intro own reserved h
    exact ⟨h,fun _ => by simp [reserve]⟩
  | succ k ih =>
    intro own reserved h
    rw [reserve]
    rcases reserved.findNextCleared_spec m.ncpu 0 with hfull | ⟨-,hlt,hcore⟩
    · rw [if_pos hfull]
      exact ⟨h,by simp⟩
    generalize reserved.findNextCleared m.ncpu 0 = core at hlt hcore
    have hown := (h.fresh hcore).2
    have hcount := Bitmap.popcount_set hlt hown
    rw [if_neg (by omega)]
    cases hno : m.noht with
    | true =>
      obtain ⟨hg,hc⟩ := ih (h.set hno hlt hcore)
      rw [if_pos rfl]
      refine ⟨hg,fun hok => ?_⟩
      rw [hc hok,hcount,perRound,hno]
      simp only [if_true]
      omega
    | false =>
      have hsib := h.sibling_fresh hno (hold hno) hlt hcore
      have hcount' : ((own.set core).set (m.sibling core)).popcount m.ncpu =
          own.popcount m.ncpu+2 := by
        rw [Bitmap.popcount_set (m.sibling_lt core hlt),hcount]
        rw [Bitmap.set_of_ne (m.sibling_ne core hlt)]
        exact (h.fresh hsib).2
      obtain ⟨hg,hc⟩ := ih (h.setPair hno (hold hno) hlt hcore)
      rw [if_neg (by simp)]
      refine ⟨hg,fun hok => ?_⟩
      rw [hc hok,hcount',perRound,hno]
      simp only [Bool.false_eq_true,if_false]
      omega

theorem Grown.xor (h : Grown m old own reserved) : reserved.xor own = old := by
  funext i
  have hin := h.inside i
  rw [Bitmap.xor,h.union i]
  cases ho : own i with
  | false => simp
  | true => simp [(hin ho).2]

end Loop

/-! ### Attaching and detaching -/

/-- What an attach can do: it is refused, or the loop fails and gives all back, or the process is
listed with what the loop reserved. -/
inductive Attached (m : Cpus) (s : State) (proc : ℕ) (guaranteed : BitVec 32) (addr : Option ℕ) :
    State × Ret → Prop
  | tooMany (hfull : iasNproc ≤ s.procsNr) : Attached m s proc guaranteed addr (s,.tooMany)
  | odd (hroom : s.procsNr < iasNproc) : Attached m s proc guaranteed addr (s,.odd)
  | noMem (hroom : s.procsNr < iasNproc) : Attached m s proc guaranteed addr (s,.noMem)
  | failReserve {own reserved : Bitmap} (hroom : s.procsNr < iasNproc)
      (hloop : reserve m (rounds m guaranteed) Bitmap.empty s.reserved = (false,own,reserved)) :
      Attached m s proc guaranteed addr ({ s with reserved := reserved.xor own },.failReserve)
  | ok {a : ℕ} {own reserved : Bitmap} (hroom : s.procsNr < iasNproc) (ha : addr = some a)
      (hodd : (!m.noht && guaranteed % 2 ≠ 0) = false)
      (hloop : reserve m (rounds m guaranteed) Bitmap.empty s.reserved = (true,own,reserved)) :
      Attached m s proc guaranteed addr
        ({ s with
           allProcs := ⟨a,proc,freeIndex s,own⟩::s.allProcs
           reserved := reserved
           procs := Function.update s.procs (freeIndex s) (some a)
           procsNr := max s.procsNr (freeIndex s+1) },.ok)

theorem iasAttach_attached (m : Cpus) (s : State) (proc : ℕ) (guaranteed : BitVec 32)
    (addr : Option ℕ) :
    Attached m s proc guaranteed addr (iasAttach m s proc guaranteed addr) := by
  unfold iasAttach
  split
  · rename_i hfull
    exact .tooMany hfull
  rename_i hroom
  rw [Nat.not_le] at hroom
  split
  · exact .odd hroom
  rename_i hodd
  split
  · exact .noMem hroom
  rename_i a
  rcases hloop : reserve m (rounds m guaranteed) Bitmap.empty s.reserved with ⟨ok,own,reserved⟩
  cases ok with
  | true => exact .ok hroom rfl (Bool.eq_false_iff.mpr hodd) hloop
  | false =>
    have herase : (⟨a,proc,0,own⟩::s.allProcs).eraseP (fun d => d.addr = a) = s.allProcs :=
      List.eraseP_cons_of_pos (by simp)
    simp only [herase]
    exact .failReserve hroom hloop

section Attach

variable {m : Platform} {s : State} {proc : ℕ} {guaranteed : BitVec 32} {addr : Option ℕ}

theorem Reserved.paired_reserved (h : Reserved m s) (hht : m.noht = false) :
    ∀ i < m.ncpu, s.reserved (m.sibling i) = s.reserved i := by
  intro i hi
  rw [Bool.eq_iff_iff,h.cover i hi,h.cover _ (m.sibling_lt i hi),m.allowed_sibling i hi]
  have hsame : ∀ d ∈ s.allProcs, d.reservedCores (m.sibling i) = d.reservedCores i :=
    fun d hd => h.paired hht d hd i hi
  constructor
  · rintro (hna | ⟨d,hd,hb⟩)
    · exact Or.inl hna
    · exact Or.inr ⟨d,hd,by rwa [hsame d hd] at hb⟩
  · rintro (hna | ⟨d,hd,hb⟩)
    · exact Or.inl hna
    · exact Or.inr ⟨d,hd,by rwa [hsame d hd]⟩

theorem Reserved.reserve (h : Reserved m s) (k : ℕ) :
    Grown m s.reserved (Ias.reserve m k Bitmap.empty s.reserved).2.1
        (Ias.reserve m k Bitmap.empty s.reserved).2.2 ∧
      ((Ias.reserve m k Bitmap.empty s.reserved).1 = true →
        (Ias.reserve m k Bitmap.empty s.reserved).2.1.popcount m.ncpu = k*perRound m) := by
  obtain ⟨hg,hc⟩ := reserve_grown h.paired_reserved k (grown_empty m s.reserved)
  refine ⟨hg,fun hok => ?_⟩
  have hzero : Bitmap.empty.popcount m.ncpu = 0 := by simp [Bitmap.popcount,Bitmap.setBits]
  rw [hc hok,hzero,Nat.zero_add]

theorem Reserved.attach {own reserved : Bitmap} (h : Reserved m s) (hg : Grown m s.reserved own reserved)
    {d : Data} (hd : d.reservedCores = own) {s' : State} (hprocs : s'.allProcs = d::s.allProcs)
    (hres : s'.reserved = reserved) : Reserved m s' where
  cover i hi := by
    rw [hres,hg.union,Bool.or_eq_true,h.cover i hi,hprocs]
    simp only [List.mem_cons,exists_eq_or_imp,hd]
    exact or_assoc.trans (or_congr_right or_comm)
  disjoint := by
    rw [hprocs]
    refine List.pairwise_cons.mpr ⟨fun d' hd' i hi hboth => ?_,h.disjoint⟩
    rw [hd] at hboth
    have hfree := (hg.inside i hboth.1).2
    rw [(h.cover i hi).mpr (Or.inr ⟨d',hd',hboth.2⟩)] at hfree
    contradiction
  paired hht d' hd' i hi := by
    rw [hprocs] at hd'
    rcases List.mem_cons.mp hd' with rfl | hd'
    · rw [hd]
      exact hg.paired hht i hi
    · exact h.paired hht d' hd' i hi

theorem toInt_toNat (g : BitVec 32) : g.toInt.toNat = if g.toNat < 2^31 then g.toNat else 0 := by
  rw [BitVec.toInt_eq_toNat_cond]
  split <;> split <;> omega

/-- The loop is asked for the guaranteed cores, as far as an `int` can hold their number. -/
theorem rounds_perRound (hodd : (!m.noht && guaranteed % 2 ≠ 0) = false) :
    rounds m guaranteed*perRound m = if guaranteed.toNat < 2^31 then guaranteed.toNat else 0 := by
  rw [rounds,perRound,toInt_toNat]
  cases hno : m.noht with
  | true => simp
  | false =>
    rw [hno] at hodd
    have heven : guaranteed.toNat % 2 = 0 := by
      simpa [BitVec.toNat_eq] using hodd
    simp only [Bool.false_eq_true,if_false]
    split <;> omega

/-- The reservations of a state, which a later step is to give back. -/
theorem detach_attached {own reserved : Bitmap} {d : Data} {s' : State}
    (hg : Grown m s.reserved own reserved) (hd : d.reservedCores = own)
    (hprocs : s'.allProcs = d::s.allProcs) (hres : s'.reserved = reserved) :
    (iasDetach s' d).reserved = s.reserved ∧ (iasDetach s' d).allProcs = s.allProcs := by
  constructor
  · change s'.reserved.xor d.reservedCores = _
    rw [hres,hd,hg.xor]
  · change s'.allProcs.eraseP _ = _
    rw [hprocs,List.eraseP_cons_of_pos (by simp)]

theorem Reserved.attached {proc : ℕ} {guaranteed : BitVec 32} {addr : Option ℕ} {s' : State}
    (h : Reserved m s) (hattach : iasAttach m s proc guaranteed addr = (s',.ok)) :
    Reserved m s' := by
  have hout := iasAttach_attached m s proc guaranteed addr
  rw [hattach] at hout
  cases hout with
  | ok hroom ha hodd hloop =>
    have hg := (h.reserve (rounds m guaranteed)).1
    rw [hloop] at hg
    exact h.attach hg rfl rfl rfl

/-- An attached process has free allowed cores, as many as guaranteed if an `int` can hold the
number, and detaching it gives exactly these back; an attach that fails leaves no trace. -/
theorem reservations_iff (h : Reserved m s) :
    (∀ {proc guaranteed addr s'}, iasAttach m s proc guaranteed addr = (s',.ok) →
      ∃ d, s'.allProcs = d::s.allProcs ∧
        (∀ i, d.reservedCores i = true →
          i < m.ncpu ∧ s.reserved i = false ∧ m.allowed i = true) ∧
        (∀ i, s'.reserved i = (s.reserved i || d.reservedCores i)) ∧
        (d.reservedCores.popcount m.ncpu = guaranteed.toNat ↔ guaranteed.toNat < 2^31) ∧
        Reserved m s' ∧
        (iasDetach s' d).reserved = s.reserved ∧ (iasDetach s' d).allProcs = s.allProcs) ∧
    (∀ {proc guaranteed addr s'}, iasAttach m s proc guaranteed addr = (s',.failReserve) →
      s'.reserved = s.reserved ∧ s'.allProcs = s.allProcs) ∧
    ∀ d ∈ s.allProcs, ∀ i < m.ncpu,
      (iasDetach s d).reserved i = (s.reserved i && !d.reservedCores i) := by
  refine ⟨fun {proc guaranteed addr s'} hattach => ?_,fun {proc guaranteed addr s'} hattach => ?_,
    fun d hd i hi => ?_⟩
  · have hreserved := h.attached hattach
    have hout := iasAttach_attached m s proc guaranteed addr
    rw [hattach] at hout
    cases hout with
    | ok hroom ha hodd hloop =>
      obtain ⟨hg,hcount⟩ := h.reserve (rounds m guaranteed)
      rw [rounds_perRound hodd] at hcount
      rw [hloop] at hg hcount
      refine ⟨_,rfl,fun i hi => ?_,hg.union,?_,hreserved,
        detach_attached hg rfl rfl rfl⟩
      · obtain ⟨hlt,hfree⟩ := hg.inside i hi
        refine ⟨hlt,hfree,?_⟩
        by_contra hna
        rw [(h.cover i hlt).mpr (Or.inl (Bool.eq_false_iff.mpr hna))] at hfree
        contradiction
      · dsimp only
        rw [hcount rfl]
        split
        · rename_i hlt
          exact ⟨fun _ => hlt,fun _ => rfl⟩
        · omega
  · have hout := iasAttach_attached m s proc guaranteed addr
    rw [hattach] at hout
    cases hout with
    | failReserve hroom hloop =>
      have hg := (h.reserve (rounds m guaranteed)).1
      rw [hloop] at hg
      exact ⟨hg.xor,rfl⟩
  · change (s.reserved i ^^ d.reservedCores i) = _
    cases hb : d.reservedCores i with
    | false => simp
    | true =>
      rw [(h.cover i hi).mpr (Or.inr ⟨d,hd,hb⟩)]
      rfl

end Attach

/-- Two pairs of hyperthreads, all of them allowed. -/
def quad : Platform where
  ncpu := 4
  noht := false
  sibling i := i ^^^ 1
  allowed := fun i => i < 4
  sibling_lt := by decide
  sibling_sibling := by decide
  sibling_ne := by decide
  allowed_sibling := by decide

/-- No process is attached. -/
def idle : State := ⟨[],fun i => !quad.allowed i,fun _ => none,0,fun _ => none⟩

theorem reserved_idle : Reserved quad idle where
  cover i hi := by simp [idle]
  disjoint := List.Pairwise.nil
  paired _ d hd := by simp [idle] at hd

theorem reservations_iff_pair : ∃ d, (iasAttach quad idle 7 2 (some 100)).1.allProcs = [d] ∧
    d.reservedCores.popcount 4 = 2 := by
  obtain ⟨d,hprocs,-,-,hcount,-⟩ := (reservations_iff reserved_idle).1
    (show iasAttach quad idle 7 2 (some 100) = ((iasAttach quad idle 7 2 (some 100)).1,.ok) from rfl)
  exact ⟨d,hprocs,hcount.mpr (by decide)⟩

/-- Beside a process with two cores the sum of the guarantees is 0 for 2^32-2 more, so that they are
admitted, and nothing is reserved for them. -/
theorem attach_without_cores : ∃ s, iasAttach quad idle 7 2 (some 100) = (s,.ok) ∧
    Reserved quad s ∧ (0xfffffffe+2 : BitVec 32) = 0 ∧
    (iasAttach quad s 8 0xfffffffe (some 200)).2 = .ok ∧
    (iasAttach quad s 8 0xfffffffe (some 200)).1.allProcs.map
      (fun d => d.reservedCores.popcount 4) = [0,2] :=
  have hpair : iasAttach quad idle 7 2 (some 100) = (_,.ok) := rfl
  ⟨_,hpair,reserved_idle.attached hpair,by decide,by decide +kernel,by decide +kernel⟩

end Vessel.Ias
