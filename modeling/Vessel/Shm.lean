import Vessel.LrpcFifo

/-! Shared memory that a client describes to the iokernel (`iokernel/shm.h`, `control.c`).
A client names places in its region by offsets, which are checked before they are turned
into pointers.  Pointers and offsets are 64-bit words; `NULL` is 0. -/
namespace Vessel

structure ShmRegion where
  base : BitVec 64
  len : BitVec 64

/-- `sizeof(struct control_hdr)`. -/
def controlHdrSize : ℕ := 96

namespace ShmRegion

/-- `control_create_proc` takes no region that is too short for the header. -/
def Registered (r : ShmRegion) : Prop := controlHdrSize ≤ r.len.toNat

/-- The `n` bytes at `a` lie inside the region. -/
def Contains (r : ShmRegion) (a : BitVec 64) (n : ℕ) : Prop :=
  (a - r.base).toNat + n ≤ r.len.toNat

end ShmRegion

/-- The sum of the offset and the length wraps. -/
def shmptrToPtr (r : ShmRegion) (shmptr len : BitVec 64) : BitVec 64 :=
  if BitVec.allOnes 64 - shmptr < r.len ∨ r.len < shmptr + len then 0 else shmptr + r.base

section Pointers

variable {r : ShmRegion} {s len : BitVec 64}

theorem shmptrToPtr_ne_zero (h : shmptrToPtr r s len ≠ 0) :
    shmptrToPtr r s len = s + r.base ∧ s.toNat + r.len.toNat < 2^64 ∧
      (s.toNat + len.toNat) % 2^64 ≤ r.len.toNat := by
  by_cases hbad : BitVec.allOnes 64 - s < r.len ∨ r.len < s + len
  · exact absurd (if_pos hbad) h
  · obtain ⟨hroom,hend⟩ := not_or.mp hbad
    refine ⟨if_neg hbad,?_,?_⟩
    · rw [BitVec.not_lt,BitVec.le_def,BitVec.allOnes_sub_eq_not,BitVec.toNat_not] at hroom
      have hs := s.isLt
      omega
    · rwa [BitVec.not_lt,BitVec.le_def,BitVec.toNat_add] at hend

theorem contains_offset (r : ShmRegion) (s d : BitVec 64) (n : ℕ) :
    r.Contains (s + r.base + d) n ↔ (s.toNat + d.toNat) % 2^64 + n ≤ r.len.toNat := by
  have hd : s + r.base + d - r.base = s + d := by
    rw [BitVec.add_assoc,BitVec.add_comm r.base d,← BitVec.add_assoc,BitVec.add_sub_cancel]
  rw [ShmRegion.Contains,hd,BitVec.toNat_add]

end Pointers

/-! ### Queues of messages -/

structure QueueSpec where
  msgCount : BitVec 64
  msgBuf : BitVec 64
  wb : BitVec 64

/-- A channel with the pointers it was given. -/
structure ShmChan (C : Type) where
  tbl : BitVec 64
  recvHeadWb : BitVec 64
  chan : C

/-- `sizeof(struct lrpc_msg)`. -/
def lrpcMsgSize : ℕ := 16

/-- The count is a 64-bit word in the check and a 32-bit one in the channel. -/
def shmInitLrpc {C : Type} (init : BitVec 32 → Option C) (r : ShmRegion) (s : QueueSpec) :
    Option (ShmChan C) :=
  let tbl := shmptrToPtr r s.msgBuf (BitVec.ofNat 64 lrpcMsgSize * s.msgCount)
  let wb := shmptrToPtr r s.wb 4
  if tbl = 0 then none
  else if wb = 0 then none
  else (init (s.msgCount.setWidth 32)).map fun c => ⟨tbl,wb,c⟩

def shmInitLrpcIn : ShmRegion → QueueSpec → Option (ShmChan Lrpc.ChanIn) :=
  shmInitLrpc Lrpc.lrpcInitIn

def shmInitLrpcOut : ShmRegion → QueueSpec → Option (ShmChan Lrpc.ChanOut) :=
  shmInitLrpc Lrpc.lrpcInitOut

/-- `&tbl[head & (size - 1)]`. -/
def slotAddr (tbl : BitVec 64) (head size : BitVec 32) : BitVec 64 :=
  tbl + BitVec.ofNat 64 (lrpcMsgSize * Lrpc.slot head size)

/-- Whatever the counters are, the slots and the write-back word are in the region. -/
structure ShmRegion.HoldsQueue (r : ShmRegion) (tbl wb : BitVec 64) (size : BitVec 32) : Prop where
  slots : ∀ head : BitVec 32, r.Contains (slotAddr tbl head size) lrpcMsgSize
  word : r.Contains wb 4

/-- The table ends before the address space does, or what is left of the count has room. -/
def QueueSpec.Fits (s : QueueSpec) (r : ShmRegion) : Prop :=
  s.msgBuf.toNat + lrpcMsgSize * s.msgCount.toNat % 2^64 < 2^64 ∨
    s.msgBuf.toNat + lrpcMsgSize * (s.msgCount.toNat % 2^32) ≤ r.len.toNat

section Queues

open Counter

variable {r : ShmRegion} {s : QueueSpec}

theorem slotAddr_contains {k : ℕ} (hk : k < 32) (s : BitVec 64) (head : BitVec 32) :
    r.Contains (slotAddr (s + r.base) head (word (2^k))) lrpcMsgSize ↔
      (s.toNat + 16*(head.toNat % 2^k)) % 2^64 + 16 ≤ r.len.toNat := by
  have hslot : Lrpc.slot head (word (2^k)) = head.toNat % 2^k := by
    have hhead : word head.toNat = head := by rw [word,BitVec.ofNat_toNat,BitVec.setWidth_eq]
    rw [← Lrpc.slot_word hk,hhead]
  rw [slotAddr,contains_offset,hslot,BitVec.toNat_ofNat,lrpcMsgSize,Nat.add_mod_mod]

theorem slots_contained_iff {k : ℕ} (hk : k < 32) {s : BitVec 64}
    (hroom : s.toNat + r.len.toNat < 2^64) :
    (∀ head, r.Contains (slotAddr (s + r.base) head (word (2^k))) lrpcMsgSize) ↔
      s.toNat + 16*2^k ≤ r.len.toNat := by
  have hpos : 0 < 2^k := Nat.two_pow_pos k
  have hsmall : 2^k ≤ 2^31 := Nat.pow_le_pow_right (by norm_num) (by omega)
  simp only [slotAddr_contains hk]
  constructor
  · intro h
    have hfirst := h 0#32
    have hlast := h (word (2^k-1))
    rw [BitVec.toNat_zero,Nat.zero_mod] at hfirst
    rw [BitVec.toNat_ofNat,Nat.mod_eq_of_lt (by omega),Nat.mod_eq_of_lt (by omega)] at hlast
    omega
  · intro h head
    have hlt := Nat.mod_lt head.toNat hpos
    omega

theorem shmInitLrpc_some {C : Type} {init : BitVec 32 → Option C} {c : ShmChan C}
    (h : shmInitLrpc init r s = some c) :
    init (s.msgCount.setWidth 32) = some c.chan ∧
      (c.tbl = s.msgBuf + r.base ∧ s.msgBuf.toNat + r.len.toNat < 2^64 ∧
        (s.msgBuf.toNat + 16 * s.msgCount.toNat % 2^64) % 2^64 ≤ r.len.toNat) ∧
      c.recvHeadWb = s.wb + r.base ∧ s.wb.toNat + r.len.toNat < 2^64 ∧
        (s.wb.toNat + 4) % 2^64 ≤ r.len.toNat := by
  simp only [shmInitLrpc] at h
  split at h
  · simp at h
  · rename_i htbl
    split at h
    · simp at h
    · rename_i hwb
      obtain ⟨ch,hinit,rfl⟩ := Option.map_eq_some_iff.mp h
      obtain ⟨hptr,hroom,hend⟩ := shmptrToPtr_ne_zero htbl
      rw [BitVec.toNat_mul] at hend
      exact ⟨hinit,⟨hptr,hroom,hend⟩,shmptrToPtr_ne_zero hwb⟩

/-- An accepted queue of any size that passed the check of the channel. -/
theorem shmInitLrpc_holdsQueue {C : Type} {init : BitVec 32 → Option C} {c : ShmChan C}
    (hreg : r.Registered) (h : shmInitLrpc init r s = some c)
    (hpow : Lrpc.isPowerOfTwo (s.msgCount.setWidth 32) = true) :
    r.HoldsQueue c.tbl c.recvHeadWb (s.msgCount.setWidth 32) ↔ s.Fits r := by
  obtain ⟨-,⟨htbl,hroom,hend⟩,hwb,hwbroom,hwbend⟩ := shmInitLrpc_some h
  obtain ⟨k,hk,hsize⟩ := Lrpc.isPowerOfTwo_word hpow
  have hcount : s.msgCount.toNat % 2^32 = 2^k := by
    rw [← BitVec.toNat_setWidth,hsize,size_toNat hk]
  -- the write-back word of a region with room for the header cannot wrap
  have hword : r.Contains c.recvHeadWb 4 := by
    have hlen : 96 ≤ r.len.toNat := hreg
    rw [hwb,← BitVec.add_zero (s.wb + r.base),contains_offset,BitVec.toNat_zero]
    omega
  have hslots := slots_contained_iff hk hroom
  rw [← htbl,← hsize] at hslots
  have hfits : s.Fits r ↔ s.msgBuf.toNat + 16*2^k ≤ r.len.toNat := by
    rw [QueueSpec.Fits,lrpcMsgSize,hcount]
    omega
  rw [hfits,← hslots]
  exact ⟨fun hq => hq.slots,fun hs => ⟨hs,hword⟩⟩

theorem lrpcInitIn_some {size : BitVec 32} {c : Lrpc.ChanIn} (h : Lrpc.lrpcInitIn size = some c) :
    Lrpc.isPowerOfTwo size = true ∧ c.size = size := by
  rw [Lrpc.lrpcInitIn,Option.ite_none_right_eq_some] at h
  obtain ⟨hpow,heq⟩ := h
  exact ⟨hpow,by rw [← Option.some.inj heq]⟩

theorem lrpcInitOut_some {size : BitVec 32} {c : Lrpc.ChanOut}
    (h : Lrpc.lrpcInitOut size = some c) : Lrpc.isPowerOfTwo size = true ∧ c.size = size := by
  rw [Lrpc.lrpcInitOut,Option.ite_none_right_eq_some] at h
  obtain ⟨hpow,heq⟩ := h
  exact ⟨hpow,by rw [← Option.some.inj heq]⟩

end Queues

/-- An accepted queue stays inside the region exactly when its table does not run over the
end of the address space, or has room all the same for the entries that the channel uses. -/
theorem shmInitLrpc_contained_iff {r : ShmRegion} (hreg : r.Registered) (s : QueueSpec) :
    (∀ c, shmInitLrpcIn r s = some c →
      (r.HoldsQueue c.tbl c.recvHeadWb c.chan.size ↔ s.Fits r)) ∧
    ∀ c, shmInitLrpcOut r s = some c →
      (r.HoldsQueue c.tbl c.recvHeadWb c.chan.size ↔ s.Fits r) := by
  constructor
  · intro c hc
    obtain ⟨hpow,hsize⟩ := lrpcInitIn_some (shmInitLrpc_some hc).1
    rw [hsize]
    exact shmInitLrpc_holdsQueue hreg hc hpow
  · intro c hc
    obtain ⟨hpow,hsize⟩ := lrpcInitOut_some (shmInitLrpc_some hc).1
    rw [hsize]
    exact shmInitLrpc_holdsQueue hreg hc hpow

/-- A table of four messages at the start of a page. -/
theorem shmInitLrpc_contained_four :
    ∃ c, shmInitLrpcIn ⟨0x700000000000,4096⟩ ⟨4,128,192⟩ = some c ∧
      (⟨0x700000000000,4096⟩ : ShmRegion).HoldsQueue c.tbl c.recvHeadWb c.chan.size := by
  have hreg : (⟨0x700000000000,4096⟩ : ShmRegion).Registered := by
    unfold ShmRegion.Registered
    decide
  have hfits : (⟨4,128,192⟩ : QueueSpec).Fits ⟨0x700000000000,4096⟩ := by
    unfold QueueSpec.Fits
    decide
  have hacc : shmInitLrpcIn ⟨0x700000000000,4096⟩ ⟨4,128,192⟩ =
      some ⟨0x700000000080,0x7000000000c0,⟨0,4⟩⟩ := rfl
  have hholds := ((shmInitLrpc_contained_iff hreg _).1 _ hacc).mpr hfits
  exact ⟨_,hacc,hholds⟩

/-- A count of `2^32+1` messages whose table ends at the end of the address space: the check
sees the end at 0, the channel has one slot, and it is not in the region. -/
theorem shmInitLrpc_outside :
    ∃ (r : ShmRegion) (s : QueueSpec) (c : ShmChan Lrpc.ChanIn), r.Registered ∧
      shmInitLrpcIn r s = some c ∧ c.chan.size = 1 ∧
      ∀ head, ¬r.Contains (slotAddr c.tbl head c.chan.size) lrpcMsgSize := by
  refine ⟨⟨0x700000000000,0x200000⟩,⟨0x100000001,0xffffffeffffffff0,0⟩,_,?_,rfl,rfl,?_⟩
  · unfold ShmRegion.Registered
    decide
  · intro head
    have hslot := slotAddr_contains (r:=⟨0x700000000000,0x200000⟩) (show 0 < 32 by decide)
      0xffffffeffffffff0#64 head
    rw [pow_zero,Nat.mod_one] at hslot
    change ¬ShmRegion.Contains _ (slotAddr (0xffffffeffffffff0#64 + 0x700000000000#64) head _) _
    intro hin
    have := hslot.mp hin
    revert this
    decide

/-! ### Hardware queues -/

/-- A shift by a 32-bit word, as the processor does it: the count is taken modulo 32. -/
def shl32 (x n : BitVec 32) : BitVec 32 := x <<< (n.toNat % 32)

structure HardwareQueueSpec where
  descriptorTable : BitVec 64
  consumerIdx : BitVec 64
  descriptorLogSize : BitVec 32
  nrDescriptors : BitVec 32
  parityByteOffset : BitVec 32
  parityBitMask : BitVec 32
  hwqType : BitVec 32

def hwqInvalid : BitVec 32 := 0

/-- `struct hwq`, without what the scheduler measures. -/
structure Hwq where
  enabled : Bool
  descriptorTable : BitVec 64
  consumerIdx : BitVec 64
  descriptorLogSize : BitVec 32
  nrDescriptors : BitVec 32
  parityByteOffset : BitVec 32
  parityBitMask : BitVec 32
  hwqType : BitVec 32

/-- None where the source returns `-EINVAL`.  The length of the table is a 32-bit product,
and the parity byte may stand one past the descriptor. -/
def controlInitHwq (r : ShmRegion) (hs : HardwareQueueSpec) : Option Hwq :=
  if hs.hwqType = hwqInvalid then some ⟨false,0,0,0,0,0,0,0⟩
  else
    let h : Hwq := {
      enabled := true
      descriptorTable := shmptrToPtr r hs.descriptorTable
        ((shl32 1 hs.descriptorLogSize * hs.nrDescriptors).setWidth 64)
      consumerIdx := shmptrToPtr r hs.consumerIdx 4
      descriptorLogSize := hs.descriptorLogSize
      nrDescriptors := hs.nrDescriptors
      parityByteOffset := hs.parityByteOffset
      parityBitMask := hs.parityBitMask
      hwqType := hs.hwqType }
    if h.descriptorTable = 0 ∨ h.consumerIdx = 0 then none
    else if ¬Lrpc.isPowerOfTwo h.nrDescriptors then none
    else if shl32 1 h.descriptorLogSize < h.parityByteOffset then none
    else some h

/-- The address that `hwq_busy` reads. -/
def hwqAddr (h : Hwq) (cqIdx : BitVec 32) : BitVec 64 :=
  let idx := cqIdx &&& (h.nrDescriptors - 1)
  h.descriptorTable + (shl32 idx h.descriptorLogSize).setWidth 64 + h.parityByteOffset.setWidth 64

def hwqBusy (mem : BitVec 64 → BitVec 8) (h : Hwq) (cqIdx : BitVec 32) : Bool :=
  let parity := decide (cqIdx &&& h.nrDescriptors ≠ 0)
  let hdParity := decide ((mem (hwqAddr h cqIdx)).setWidth 32 &&& h.parityBitMask ≠ 0)
  parity == hdParity

namespace HardwareQueueSpec

/-- The size of a descriptor. -/
def stride (hs : HardwareQueueSpec) : ℕ := 2^(hs.descriptorLogSize.toNat % 32)

/-- The farthest parity byte: offsets of descriptors are 32-bit words. -/
def lastByte (hs : HardwareQueueSpec) : ℕ :=
  hs.descriptorTable.toNat + (min (hs.nrDescriptors.toNat * hs.stride) (2^32) - hs.stride) +
    hs.parityByteOffset.toNat

/-- The farthest parity byte is in the region, or every parity byte comes round to it over
the end of the address space. -/
def Fits (hs : HardwareQueueSpec) (r : ShmRegion) : Prop :=
  hs.lastByte < r.len.toNat ∨
    2^64 ≤ hs.descriptorTable.toNat + hs.parityByteOffset.toNat ∧ hs.lastByte < 2^64 + r.len.toNat

end HardwareQueueSpec

section HardwareQueues

open Counter

variable {r : ShmRegion} {hs : HardwareQueueSpec} {h : Hwq}

theorem shl32_toNat (x n : BitVec 32) :
    (shl32 x n).toNat = 2^(n.toNat % 32) * (x.toNat % 2^(32 - n.toNat % 32)) := by
  have hsplit : 2^32 = 2^(n.toNat % 32) * 2^(32 - n.toNat % 32) := by
    rw [← pow_add]
    congr 1
    omega
  rw [shl32,BitVec.toNat_shiftLeft,Nat.shiftLeft_eq,Nat.mul_comm x.toNat,hsplit,
    Nat.mul_mod_mul_left]

theorem controlInitHwq_some (hacc : controlInitHwq r hs = some h) (hen : h.enabled = true) :
    (h.descriptorTable = hs.descriptorTable + r.base ∧
      hs.descriptorTable.toNat + r.len.toNat < 2^64) ∧
    h.descriptorLogSize = hs.descriptorLogSize ∧ h.parityByteOffset = hs.parityByteOffset ∧
    h.nrDescriptors = hs.nrDescriptors ∧ Lrpc.isPowerOfTwo hs.nrDescriptors = true := by
  simp only [controlInitHwq] at hacc
  split at hacc
  · obtain rfl := Option.some.inj hacc
    simp at hen
  · split at hacc
    · simp at hacc
    · rename_i hptr
      split at hacc
      · simp at hacc
      · rename_i hpow
        split at hacc
        · simp at hacc
        · obtain rfl := Option.some.inj hacc
          obtain ⟨htable,hroom,-⟩ := shmptrToPtr_ne_zero (not_or.mp hptr).1
          exact ⟨⟨htable,hroom⟩,rfl,rfl,rfl,not_not.mp hpow⟩

theorem hwqAddr_contains {k : ℕ} (hk : k < 32) (hacc : controlInitHwq r hs = some h)
    (hen : h.enabled = true) (hnr : hs.nrDescriptors = word (2^k)) (cq : BitVec 32) :
    r.Contains (hwqAddr h cq) 1 ↔
      (hs.descriptorTable.toNat +
        (hs.stride * (cq.toNat % 2^k % 2^(32 - hs.descriptorLogSize.toNat % 32)) +
          hs.parityByteOffset.toNat)) % 2^64 < r.len.toNat := by
  obtain ⟨⟨htable,-⟩,hlog,hpar,hnr',-⟩ := controlInitHwq_some hacc hen
  have hidx : (cq &&& (h.nrDescriptors - 1)).toNat = cq.toNat % 2^k := by
    have hcq : word cq.toNat = cq := by rw [word,BitVec.ofNat_toNat,BitVec.setWidth_eq]
    rw [hnr',hnr,← and_mask_toNat hk,hcq]
  rw [hwqAddr,htable,BitVec.add_assoc,contains_offset,Nat.succ_le_iff,BitVec.toNat_add,
    BitVec.toNat_setWidth_of_le (by decide),BitVec.toNat_setWidth_of_le (by decide),shl32_toNat,
    hidx,hlog,hpar,Nat.add_mod_mod]
  rfl

/-- The farthest of a row of bytes decides, also where the row lies past the end of the
address space. -/
theorem row_inside_iff {d p len stride n w : ℕ} (hn : 0 < n) (hw : 0 < w)
    (hlen : d + len < 2^64) (hrow : stride * w ≤ 2^32) (hp : p < 2^32) :
    (∀ i < n, (d + (stride * (i % w) + p)) % 2^64 < len) ↔
      d + (stride * (min n w) - stride) + p < len ∨
        2^64 ≤ d + p ∧ d + (stride * (min n w) - stride) + p < 2^64 + len := by
  have hmin : 0 < min n w := lt_min hn hw
  have hlast : stride * (min n w) - stride = stride * (min n w - 1) := by
    rw [Nat.mul_sub_one]
  have hfar : ∀ i < n, stride * (i % w) ≤ stride * (min n w - 1) := by
    intro i hi
    have hle := Nat.mod_le i w
    have hlt := Nat.mod_lt i hw
    exact Nat.mul_le_mul_left _ (by omega)
  have hbound : stride * (min n w - 1) < 2^32 ∨ stride * (min n w - 1) = 0 := by
    rcases Nat.eq_zero_or_pos stride with h0 | hpos
    · exact Or.inr (by rw [h0,Nat.zero_mul])
    · exact Or.inl (lt_of_lt_of_le (Nat.mul_lt_mul_of_pos_left (by omega) hpos) hrow)
  rw [hlast]
  constructor
  · intro hall
    have hfirst := hall 0 hn
    have hend := hall (min n w - 1) (by omega)
    rw [Nat.zero_mod,Nat.mul_zero,Nat.zero_add] at hfirst
    rw [Nat.mod_eq_of_lt (show min n w - 1 < w by omega)] at hend
    omega
  · intro hfits i hi
    have := hfar i hi
    omega

end HardwareQueues

/-- The byte that `hwq_busy` reads of an accepted queue is in the region for every consumer
index exactly when the farthest parity byte is. -/
theorem hwqBusy_contained_iff {r : ShmRegion} {hs : HardwareQueueSpec} {h : Hwq}
    (hacc : controlInitHwq r hs = some h) (hen : h.enabled = true) :
    (∀ cqIdx : BitVec 32, r.Contains (hwqAddr h cqIdx) 1) ↔ hs.Fits r := by
  obtain ⟨⟨-,hroom⟩,-,-,-,hpow⟩ := controlInitHwq_some hacc hen
  obtain ⟨k,hk,hnr⟩ := Lrpc.isPowerOfTwo_word hpow
  let l := hs.descriptorLogSize.toNat % 32
  have hsplit : hs.stride * 2^(32-l) = 2^32 := by
    rw [HardwareQueueSpec.stride,← pow_add]
    congr 1
    omega
  have hmin : hs.stride * min (2^k) (2^(32-l)) =
      min (hs.nrDescriptors.toNat * hs.stride) (2^32) := by
    rw [← Nat.mul_min_mul_left,hsplit,hnr,Counter.size_toNat hk,Nat.mul_comm]
  have hrow := row_inside_iff (n:=2^k) (w:=2^(32-l)) (Nat.two_pow_pos k)
    (Nat.two_pow_pos _) hroom hsplit.le hs.parityByteOffset.isLt
  rw [hmin] at hrow
  refine Iff.trans ?_ hrow
  simp only [hwqAddr_contains hk hacc hen hnr]
  constructor
  · intro hall i hi
    have hsmall : i < 2^32 := hi.trans (Nat.pow_lt_pow_right (by norm_num) hk)
    have := hall (BitVec.ofNat 32 i)
    rwa [BitVec.toNat_ofNat,Nat.mod_eq_of_lt hsmall,Nat.mod_eq_of_lt hi] at this
  · intro hall cq
    exact hall _ (Nat.mod_lt _ (Nat.two_pow_pos k))

/-- Four descriptors of 64 bytes at the start of a page, the parity in their last byte. -/
theorem hwqBusy_contained_four :
    ∃ h, controlInitHwq ⟨0x700000000000,4096⟩ ⟨0,1024,6,4,63,1,1⟩ = some h ∧ h.enabled = true ∧
      ∀ cqIdx, (⟨0x700000000000,4096⟩ : ShmRegion).Contains (hwqAddr h cqIdx) 1 := by
  have hacc : controlInitHwq ⟨0x700000000000,4096⟩ ⟨0,1024,6,4,63,1,1⟩ =
      some ⟨true,0x700000000000,0x700000000400,6,4,63,1,1⟩ := rfl
  have hfits : (⟨0,1024,6,4,63,1,1⟩ : HardwareQueueSpec).Fits ⟨0x700000000000,4096⟩ := by
    unfold HardwareQueueSpec.Fits
    decide
  exact ⟨_,hacc,rfl,(hwqBusy_contained_iff hacc rfl).mpr hfits⟩

/-- `2^16` descriptors of `2^16` bytes have a length of 0 in 32 bits, and a parity byte one
past a descriptor at the end of the region is let through: both queues are accepted and read
outside. -/
theorem hwqBusy_outside :
    (∃ (r : ShmRegion) (hs : HardwareQueueSpec) (h : Hwq), r.Registered ∧
      controlInitHwq r hs = some h ∧ h.enabled = true ∧
      ¬r.Contains (hwqAddr h 0xffff) 1) ∧
    ∃ (r : ShmRegion) (hs : HardwareQueueSpec) (h : Hwq), r.Registered ∧
      controlInitHwq r hs = some h ∧ h.enabled = true ∧ ∀ cqIdx, ¬r.Contains (hwqAddr h cqIdx) 1 := by
  constructor
  · refine ⟨⟨0x700000000000,0x200000⟩,⟨0,0,16,0x10000,0,1,1⟩,
      ⟨true,0x700000000000,0x700000000000,16,0x10000,0,1,1⟩,?_,rfl,rfl,?_⟩
    · unfold ShmRegion.Registered
      decide
    · unfold ShmRegion.Contains
      decide
  · refine ⟨⟨0x700000000000,4096⟩,⟨4032,0,6,1,64,1,1⟩,
      ⟨true,0x700000000fc0,0x700000000000,6,1,64,1,1⟩,?_,rfl,rfl,?_⟩
    · unfold ShmRegion.Registered
      decide
    · intro cq hin
      have hacc : controlInitHwq ⟨0x700000000000,4096⟩ ⟨4032,0,6,1,64,1,1⟩ =
        some ⟨true,0x700000000fc0,0x700000000000,6,1,64,1,1⟩ := rfl
      have hbyte := (hwqAddr_contains (k:=0) (by decide) hacc rfl rfl cq).mp hin
      rw [pow_zero,Nat.mod_one,Nat.zero_mod] at hbyte
      revert hbyte
      decide

end Vessel
