import Mathlib

/-! The region that a runtime shares with the iokernel (`runtime/ioqueues.c`): what
`estimate_shm_space` computes for it, and what `ioqueues_init` takes from it. -/
namespace Vessel

open List
namespace ShmEstimate

def alignUp (x align : ℕ) : ℕ := (x+align-1)/align*align

/-- What the sizes depend on; `ncpu` is fixed when the runtime is built. -/
structure Config where
  maxks : ℕ
  guaranteedks : ℕ
  ncpu : ℕ

def cacheLineSize : ℕ := 64

def pgsize2mb : ℕ := 2^21

/-- `PACKET_QUEUE_MCOUNT` and `COMMAND_QUEUE_MCOUNT`. -/
def queueMcount : ℕ := 4096

/-! ### The sizes of the structures -/

def sizeofControlHdr : ℕ := 96

def sizeofThreadSpec : ℕ := 200

def sizeofCongestionInfo : ℕ := 32

def sizeofQPtrs : ℕ := 56

def sizeofLrpcMsg : ℕ := 16

/-- `BUSY_KTHREAD_SIZE` times the size of an `atomic_t`. -/
def sizeofBusyKthreads : ℕ := 128*4

/-- One line for the queue, and one for each of the cpus in its set. -/
def sizeofLfQueue (ncpu : ℕ) : ℕ := 64+64*ncpu

def calculateEgressPoolSize (guaranteedks : ℕ) : ℕ :=
  alignUp (queueMcount*2048*max 1 guaranteedks*8) pgsize2mb

/-! ### The estimate -/

/-- `estimate_shm_space`, up to the egress buffers. -/
def estimateQueues (maxks : ℕ) : ℕ :=
  let queue := alignUp (sizeofLrpcMsg*queueMcount) cacheLineSize
  alignUp (sizeofControlHdr+sizeofThreadSpec*maxks) cacheLineSize+cacheLineSize+queue*maxks+
    (queue+alignUp 4 cacheLineSize)*maxks+(queue+alignUp 4 cacheLineSize)*maxks+
    alignUp sizeofQPtrs cacheLineSize*maxks

def estimateShmSpace (c : Config) : ℕ :=
  alignUp (alignUp (estimateQueues c.maxks) pgsize2mb+calculateEgressPoolSize c.guaranteedks)
    pgsize2mb+alignUp sizeofBusyKthreads cacheLineSize+
    alignUp (sizeofLfQueue c.ncpu) cacheLineSize

/-! ### The allocations -/

structure Call where
  size : ℕ
  alignment : ℕ

/-- Where the block of a call starts. -/
def Call.start (k : Call) (allocated : ℕ) : ℕ := alignUp allocated (max cacheLineSize k.alignment)

/-- `iok_shm_alloc` in a region of `len` bytes: `allocated` behind the block, none where
`shmptr_to_ptr` gives the `NULL` that is a bug. -/
def iokShmAlloc (len allocated : ℕ) (k : Call) : Option ℕ :=
  if 2^64-1-k.start allocated < len ∨ len < k.start allocated+k.size then none
  else some (k.start allocated+k.size)

def ioqueueAlloc (msgCount : ℕ) (allocWb : Bool) : List Call :=
  ⟨sizeofLrpcMsg*msgCount,cacheLineSize⟩::
    if allocWb then [⟨cacheLineSize,cacheLineSize⟩] else []

/-- The body of the loop over the kthreads. -/
def kthreadAlloc : List Call :=
  ioqueueAlloc queueMcount false++ioqueueAlloc queueMcount true++ioqueueAlloc queueMcount true++
    [⟨sizeofQPtrs,cacheLineSize⟩,⟨8,cacheLineSize⟩]

def ioqueuesCalls (c : Config) : List Call :=
  [⟨sizeofControlHdr,0⟩,⟨sizeofThreadSpec*c.maxks,0⟩,⟨sizeofCongestionInfo,0⟩]++
    (List.replicate c.maxks kthreadAlloc).flatten++
    [⟨calculateEgressPoolSize c.guaranteedks,pgsize2mb⟩,⟨sizeofBusyKthreads,cacheLineSize⟩,
      ⟨sizeofLfQueue c.ncpu,cacheLineSize⟩]

def ioqueuesInit (c : Config) : Option ℕ :=
  (ioqueuesCalls c).foldlM (iokShmAlloc (estimateShmSpace c)) 0

/-! ### How far they come -/

/-- Where the blocks of the calls end. -/
def endsAt (x : ℕ) (ks : List Call) : ℕ := ks.foldl (fun x k => k.start x+k.size) x

theorem le_alignUp {x a : ℕ} (ha : 0 < a) : x ≤ alignUp x a := by
  have hmod := Nat.mod_lt (x+a-1) ha
  have hdiv := Nat.div_add_mod' (x+a-1) a
  rw [alignUp]
  omega

theorem alignUp_lt {x a : ℕ} (ha : 0 < a) : alignUp x a < x+a := by
  have hdiv := Nat.div_mul_le_self (x+a-1) a
  rw [alignUp]
  omega

theorem dvd_alignUp (x a : ℕ) : a ∣ alignUp x a := Nat.dvd_mul_left a _

theorem alignUp_of_dvd {x a : ℕ} (ha : 0 < a) (h : a ∣ x) : alignUp x a = x := by
  obtain ⟨q,rfl⟩ := h
  rw [alignUp,Nat.add_sub_assoc ha,Nat.mul_add_div ha,Nat.div_eq_of_lt (by omega),Nat.add_zero,
    Nat.mul_comm]

theorem Call.le_start (k : Call) (x : ℕ) : x ≤ k.start x :=
  le_alignUp (Nat.lt_of_lt_of_le (m:=cacheLineSize) (by decide) (Nat.le_max_left _ _))

theorem le_endsAt (ks : List Call) (x : ℕ) : x ≤ endsAt x ks := by
  induction ks generalizing x with
  | nil => exact Nat.le_refl x
  | cons k ks ih => exact Nat.le_trans (Nat.le_trans (k.le_start x) (Nat.le_add_right _ _)) (ih _)

/-- No call fails just if the last block ends inside of the region. -/
theorem foldlM_isSome {len : ℕ} (hlen : len < 2^63) (ks : List Call) (x : ℕ) (hx : x ≤ len) :
    (ks.foldlM (iokShmAlloc len) x).isSome ↔ endsAt x ks ≤ len := by
  induction ks generalizing x with
  | nil => simpa [endsAt] using hx
  | cons k ks ih =>
    have hrest := le_endsAt ks (k.start x+k.size)
    rw [foldlM_cons,endsAt,foldl_cons,← endsAt,iokShmAlloc]
    split_ifs with h
    · simp only [Option.bind_eq_bind,Option.bind_none,Option.isSome_none,Bool.false_eq_true,
        false_iff]
      omega
    · exact ih _ (by omega)

/-- Where the queues end, for at least one kthread. -/
def queuesEnd (maxks : ℕ) : ℕ := alignUp (128+200*maxks) 64+8+196864*maxks

theorem endsAt_append (x : ℕ) (ks ks' : List Call) :
    endsAt x (ks++ks') = endsAt (endsAt x ks) ks' := foldl_append

theorem endsAt_kthread (x : ℕ) : endsAt x kthreadAlloc = alignUp x 64+196808 := by
  simp only [endsAt,kthreadAlloc,ioqueueAlloc,Call.start,alignUp,cacheLineSize,queueMcount,
    sizeofLrpcMsg,sizeofQPtrs,Nat.max_self,cons_append,nil_append,foldl_cons,
    foldl_nil,if_true,Bool.false_eq_true,if_false]
  omega

theorem endsAt_kthreads (n x : ℕ) :
    endsAt x (List.replicate (n+1) kthreadAlloc).flatten = alignUp x 64+196864*n+196808 := by
  induction n generalizing x with
  | zero =>
    rw [replicate_one,flatten_singleton,endsAt_kthread]
  | succ n ih =>
    rw [replicate_succ,flatten_cons,endsAt_append,endsAt_kthread,ih,alignUp,alignUp]
    omega

theorem endsAt_queues (maxks : ℕ) (hks : 1 ≤ maxks) :
    endsAt 0 ([⟨sizeofControlHdr,0⟩,⟨sizeofThreadSpec*maxks,0⟩,⟨sizeofCongestionInfo,0⟩]++
      (List.replicate maxks kthreadAlloc).flatten) = queuesEnd maxks := by
  obtain ⟨n,rfl⟩ := Nat.exists_eq_add_of_le' hks
  rw [endsAt_append,endsAt_kthreads]
  simp only [endsAt,queuesEnd,Call.start,alignUp,cacheLineSize,sizeofControlHdr,sizeofThreadSpec,
    sizeofCongestionInfo,foldl_cons,foldl_nil,Nat.max_zero]
  omega

/-- The large pages in front of the egress buffers, with them. -/
theorem dvd_pages (x guaranteedks : ℕ) :
    pgsize2mb ∣ alignUp x pgsize2mb+calculateEgressPoolSize guaranteedks :=
  Nat.dvd_add (dvd_alignUp _ _) (dvd_alignUp _ _)

theorem cacheLineSize_dvd (x guaranteedks : ℕ) :
    cacheLineSize ∣ alignUp x pgsize2mb+calculateEgressPoolSize guaranteedks :=
  Nat.dvd_trans (by decide) (dvd_pages x guaranteedks)

theorem endsAt_cons (x : ℕ) (k : Call) (ks : List Call) :
    endsAt x (k::ks) = endsAt (k.start x+k.size) ks := rfl

theorem Call.start_of_dvd {x : ℕ} (h : cacheLineSize ∣ x) (size : ℕ) :
    (⟨size,cacheLineSize⟩ : Call).start x = x := by
  rw [Call.start,Nat.max_self]
  exact alignUp_of_dvd (by decide) h

theorem Call.start_page (size x : ℕ) :
    (⟨size,pgsize2mb⟩ : Call).start x = alignUp x pgsize2mb := by
  have hmax : max cacheLineSize pgsize2mb = pgsize2mb := Nat.max_eq_right (by decide)
  rw [Call.start,hmax]

theorem endsAt_ioqueues (c : Config) (hks : 1 ≤ c.maxks) :
    endsAt 0 (ioqueuesCalls c) = alignUp (queuesEnd c.maxks) pgsize2mb+
      calculateEgressPoolSize c.guaranteedks+sizeofBusyKthreads+sizeofLfQueue c.ncpu := by
  have hpages := cacheLineSize_dvd (queuesEnd c.maxks) c.guaranteedks
  have hbusy : cacheLineSize ∣ sizeofBusyKthreads := by decide
  rw [ioqueuesCalls,endsAt_append,endsAt_queues _ hks,endsAt_cons,Call.start_page,endsAt_cons,
    Call.start_of_dvd hpages,endsAt_cons,Call.start_of_dvd (Nat.dvd_add hpages hbusy)]
  rfl

theorem estimateShmSpace_eq (c : Config) :
    estimateShmSpace c = alignUp (estimateQueues c.maxks) pgsize2mb+
      calculateEgressPoolSize c.guaranteedks+sizeofBusyKthreads+sizeofLfQueue c.ncpu := by
  have hqueue : cacheLineSize ∣ sizeofLfQueue c.ncpu :=
    Nat.dvd_add (Nat.dvd_refl 64) (Nat.dvd_mul_right 64 c.ncpu)
  rw [estimateShmSpace]
  generalize estimateQueues c.maxks = q
  rw [alignUp_of_dvd (by decide) (dvd_pages _ _),
    alignUp_of_dvd (by decide) hqueue,alignUp_of_dvd (x:=sizeofBusyKthreads) (by decide) (by decide)]

theorem estimateShmSpace_lt {c : Config} (hks : c.maxks < 2^32) (hgk : c.guaranteedks < 2^32)
    (hcpu : c.ncpu < 2^32) : estimateShmSpace c < 2^63 := by
  have hqueues : estimateQueues c.maxks < 2^60 := by
    simp only [estimateQueues,alignUp,cacheLineSize,queueMcount,sizeofControlHdr,sizeofThreadSpec,
      sizeofQPtrs,sizeofLrpcMsg]
    omega
  have hpages : alignUp (estimateQueues c.maxks) pgsize2mb < 2^60+pgsize2mb :=
    Nat.lt_trans (alignUp_lt (a:=pgsize2mb) (by decide)) (Nat.add_lt_add_right hqueues _)
  have hpool : calculateEgressPoolSize c.guaranteedks < 2^26*max 1 c.guaranteedks+pgsize2mb := by
    have hlt := alignUp_lt (x:=queueMcount*2048*max 1 c.guaranteedks*8) (a:=pgsize2mb) (by decide)
    rw [calculateEgressPoolSize]
    refine Nat.lt_of_lt_of_eq hlt ?_
    rw [queueMcount]
    omega
  have hpage : pgsize2mb = 2^21 := rfl
  rw [estimateShmSpace_eq,sizeofBusyKthreads,sizeofLfQueue]
  omega

theorem ioqueuesInit_isSome {c : Config} (hks : 1 ≤ c.maxks) (hmax : c.maxks ≤ c.ncpu)
    (hcpu : c.ncpu < 2^32) (hgk : c.guaranteedks < 2^32) :
    (ioqueuesInit c).isSome ↔
      alignUp (queuesEnd c.maxks) pgsize2mb ≤ alignUp (estimateQueues c.maxks) pgsize2mb := by
  have hlen := estimateShmSpace_lt (by omega) hgk hcpu
  rw [ioqueuesInit,foldlM_isSome hlen _ _ (Nat.zero_le _),endsAt_ioqueues c hks,
    estimateShmSpace_eq]
  omega

theorem queues_fit : ∀ n < 149, alignUp (queuesEnd n) pgsize2mb ≤
    alignUp (estimateQueues n) pgsize2mb := by
  decide

/-- No allocation fails just if the queues, with the words for the queueing delays that the estimate
leaves out, end in the large page where the estimate has them end. -/
theorem shm_suffices_iff (c : Config) (hks : 1 ≤ c.maxks) (hmax : c.maxks ≤ c.ncpu)
    (hcpu : c.ncpu < 2^32) (hgk : c.guaranteedks < 2^32) :
    ((ioqueuesInit c).isSome ↔
      alignUp (queuesEnd c.maxks) pgsize2mb ≤ alignUp (estimateQueues c.maxks) pgsize2mb) ∧
    (c.maxks < 149 → (ioqueuesInit c).isSome) := by
  have hiff := ioqueuesInit_isSome hks hmax hcpu hgk
  exact ⟨hiff,fun h => hiff.mpr (queues_fit _ h)⟩

theorem shm_suffices_iff_eight : ((ioqueuesInit ⟨8,4,8192⟩).isSome ↔
      alignUp (queuesEnd 8) pgsize2mb ≤ alignUp (estimateQueues 8) pgsize2mb) ∧
    (8 < 149 → (ioqueuesInit ⟨8,4,8192⟩).isSome) :=
  shm_suffices_iff ⟨8,4,8192⟩ (by decide) (by decide) (by decide) (by decide)

theorem shm_exceeded : ioqueuesInit ⟨149,0,8192⟩ = none := by
  rw [← Option.not_isSome_iff_eq_none,ioqueuesInit_isSome] <;> decide

end ShmEstimate
end Vessel
