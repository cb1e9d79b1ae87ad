import Vessel.Machine
import Mathlib.Data.Nat.Bitwise

/-! The allocator that a task uses while it starts (`core/startalloc.c`): a counter in a region of
1 GB, rounded up and advanced by each call, and set back by `start_realloc`. -/
namespace Vessel.StartAlloc

def startMemEnd : ℕ := 2^30

/-- `align_up`, in 64 bits. -/
def alignUp (x align : BitVec 64) : BitVec 64 := ((x-1) ||| (align-1))+1

/-- What a call returned: the pointer, and the size that was asked for. -/
structure Block where
  ptr : BitVec 64
  size : ℕ
  deriving DecidableEq

/-- `miniop_cnt`, `miniop_last` and `miniop_base`; `blocks` are the blocks in use, newest first. -/
structure Arena where
  base : BitVec 64
  cnt : BitVec 64
  last : BitVec 64
  blocks : List Block
  fits : base.toNat+startMemEnd < 2^64

/-- The block starts at `alup` in the region and the counter goes to `next`. -/
def Arena.push (a : Arena) (alup next : BitVec 64) (size : ℕ) : Arena :=
  { a with cnt := next, blocks := ⟨a.base+alup,size⟩::a.blocks }

/-- None where the source aborts. -/
def startMalloc (a : Arena) (n : BitVec 64) : Option Arena :=
  let alup := alignUp a.cnt 8
  if startMemEnd < alup.toNat || startMemEnd < (alup+n).toNat then none
  else some ({ a with last := alup }.push alup (alup+n) n.toNat)

def startAlignedAlloc (a : Arena) (align len : BitVec 64) : Option Arena :=
  let alup := alignUp a.cnt align
  let len' := alignUp len align
  if startMemEnd < alup.toNat || startMemEnd < (alup+len').toNat then none
  else some (a.push alup (alup+len') len.toNat)

/-- The end of the block is not compared with the end of the region. -/
def startCalloc (a : Arena) (num size : BitVec 64) : Option Arena :=
  let alup := alignUp a.cnt 64
  if startMemEnd < alup.toNat then none
  else some (a.push alup (alup+num*size) (num.toNat*size.toNat))

/-- `start_realloc` of a block that is not NULL.  The assertion, which compares the pointer with an
offset, is only in debug builds. -/
def startRealloc (debug : Bool) (a : Arena) (b : Block) (size : BitVec 64) : Option Arena :=
  if debug && b.ptr ≠ a.last then none
  else startMalloc { a with cnt := a.last, blocks := a.blocks.erase b } size

inductive Event
  | malloc (n : BitVec 64)
  | alignedAlloc (k : Fin 64) (len : BitVec 64)
  | calloc (num size : BitVec 64)
  | realloc (i : ℕ) (size : BitVec 64)
  | reallocNull (size : BitVec 64)

/-- Alignments are powers of two; the caller of `start_realloc` has the block it passes. -/
def step (debug : Bool) (a : Arena) : Event → Option Arena
  | .malloc n => startMalloc a n
  | .alignedAlloc k len => startAlignedAlloc a (1#64 <<< k.val) len
  | .calloc num size => startCalloc a num size
  | .realloc i size => a.blocks[i]?.bind fun b => startRealloc debug a b size
  | .reallocNull size => startMalloc a size

/-- The block lies in the region. -/
def Block.Inside (b : Block) (a : Arena) : Prop :=
  a.base.toNat ≤ b.ptr.toNat ∧ b.ptr.toNat+b.size ≤ a.base.toNat+startMemEnd

def Block.Disjoint (b b' : Block) : Prop :=
  b.ptr.toNat+b.size ≤ b'.ptr.toNat ∨ b'.ptr.toNat+b'.size ≤ b.ptr.toNat

/-- No sum of a call wraps around, `start_calloc` stays in the region, and `start_realloc` gets the
newest block, which `start_malloc` returned. -/
def orderly (a : Arena) : Event → Prop
  | .malloc n => (alignUp a.cnt 8).toNat+n.toNat < 2^64
  | .alignedAlloc k len => len.toNat+2^k.val ≤ 2^64 ∧
      (alignUp a.cnt (1#64 <<< k.val)).toNat+(alignUp len (1#64 <<< k.val)).toNat < 2^64
  | .calloc num size => (alignUp a.cnt 64).toNat+num.toNat*size.toNat ≤ startMemEnd
  | .realloc i size => i = 0 ∧ (∀ b ∈ a.blocks.head?, b.ptr = a.base+a.last) ∧
      (alignUp a.last 8).toNat+size.toNat < 2^64
  | .reallocNull size => (alignUp a.cnt 8).toNat+size.toNat < 2^64

instance (a : Arena) : (e : Event) → Decidable (orderly a e)
  | .malloc _ => inferInstanceAs (Decidable (_ < _))
  | .alignedAlloc _ _ => inferInstanceAs (Decidable (_ ∧ _))
  | .calloc _ _ => inferInstanceAs (Decidable (_ ≤ _))
  | .realloc _ _ => inferInstanceAs (Decidable (_ ∧ _ ∧ _))
  | .reallocNull _ => inferInstanceAs (Decidable (_ < _))

/-! ### Rounding -/

theorem or_low_le (y k : ℕ) : y ||| (2^k-1) ≤ y/2^k*2^k+(2^k-1) := by
  have hlt : y % 2^k < 2^k := Nat.mod_lt _ (Nat.two_pow_pos k)
  have hsplit : y = 2^k*(y/2^k) ||| y % 2^k := by
    rw [← Nat.two_pow_add_eq_or_of_lt hlt,Nat.div_add_mod]
  have hlow : y % 2^k ||| (2^k-1) < 2^k := Nat.or_lt_two_pow hlt (by omega)
  calc y ||| (2^k-1) = 2^k*(y/2^k) ||| (y % 2^k ||| (2^k-1)) := by
        conv_lhs => rw [hsplit,Nat.or_assoc]
    _ = 2^k*(y/2^k)+(y % 2^k ||| (2^k-1)) := (Nat.two_pow_add_eq_or_of_lt hlow _).symm
    _ ≤ y/2^k*2^k+(2^k-1) := by
        rw [Nat.mul_comm]
        omega

theorem le_alignUp {x : BitVec 64} {k : ℕ} (hk : k < 64) (h : x.toNat+2^k ≤ 2^64) :
    x.toNat ≤ (alignUp x (1#64 <<< k)).toNat := by
  by_cases hx : x = 0
  · rw [hx]
    exact Nat.zero_le _
  have hpos : 0 < x.toNat := Nat.pos_of_ne_zero fun h0 => hx (BitVec.eq_of_toNat_eq h0)
  have hpow : 2^k < 2^64 := Nat.pow_lt_pow_right (by omega) hk
  have hk0 := Nat.two_pow_pos k
  have hone : (1 : BitVec 64).toNat = 1 := rfl
  have hx1 : (x-1).toNat = x.toNat-1 := by
    rw [BitVec.toNat_sub_of_le (by rw [BitVec.le_def]; omega),hone]
  have halign : ((1#64 <<< k)-1).toNat = 2^k-1 := by
    have hshift : (1#64 <<< k).toNat = 2^k := by
      rw [BitVec.toNat_shiftLeft,BitVec.toNat_ofNat,Nat.shiftLeft_eq]
      omega
    rw [BitVec.toNat_sub_of_le (by rw [BitVec.le_def]; omega),hone,hshift]
  -- the rounded value minus one is less than a whole step below the end
  have hup := or_low_le (x.toNat-1) k
  have hq : ((x.toNat-1)/2^k+1)*2^k < 2^64 := by
    have hdvd : 2^64 = 2^(64-k)*2^k := by
      rw [← Nat.pow_add,Nat.sub_add_cancel (by omega)]
    have hlt : (x.toNat-1)/2^k+1 < 2^(64-k) := by
      rw [← Nat.add_div_right _ hk0]
      apply Nat.div_lt_of_lt_mul
      rw [Nat.mul_comm,← hdvd]
      omega
    rw [hdvd]
    exact Nat.mul_lt_mul_of_pos_right hlt hk0
  rw [Nat.add_mul,Nat.one_mul] at hq
  have hlow : x.toNat-1 ≤ (x.toNat-1) ||| (2^k-1) := Nat.left_le_or
  rw [alignUp,BitVec.toNat_add,BitVec.toNat_or,hx1,halign,hone,Nat.mod_eq_of_lt (by omega)]
  omega

/-! ### Calls -/

/-- The counter is in the region, no block reaches past it, and each block ends before the newer
ones start. -/
structure Arena.Stacked (a : Arena) : Prop where
  cnt : a.cnt.toNat ≤ startMemEnd
  below : ∀ b ∈ a.blocks, b.ptr.toNat+b.size ≤ a.base.toNat+a.cnt.toNat
  above : ∀ b ∈ a.blocks, a.base.toNat ≤ b.ptr.toNat
  ordered : a.blocks.Pairwise fun b b' => b'.ptr.toNat+b'.size ≤ b.ptr.toNat

section Calls

variable {a a' : Arena} {alup next : BitVec 64} {size : ℕ}

theorem Arena.ptr_toNat (a : Arena) (alup : BitVec 64) (h : alup.toNat ≤ startMemEnd) :
    (a.base+alup).toNat = a.base.toNat+alup.toNat := by
  have := a.fits
  rw [BitVec.toNat_add,Nat.mod_eq_of_lt (by omega)]

theorem Arena.Stacked.push (h : a.Stacked) (hlo : a.cnt.toNat ≤ alup.toNat)
    (hsize : alup.toNat+size ≤ next.toNat) (hhi : next.toNat ≤ startMemEnd) :
    (a.push alup next size).Stacked := by
  have hptr := a.ptr_toNat alup (by omega)
  refine ⟨hhi,fun b hb => ?_,fun b hb => ?_,?_⟩
  · rcases List.mem_cons.mp hb with rfl | hb
    · change (a.base+alup).toNat+size ≤ a.base.toNat+next.toNat
      omega
    · have := h.below b hb
      change b.ptr.toNat+b.size ≤ a.base.toNat+next.toNat
      omega
  · rcases List.mem_cons.mp hb with rfl | hb
    · change a.base.toNat ≤ (a.base+alup).toNat
      omega
    · exact h.above b hb
  · refine List.pairwise_cons.mpr ⟨fun b hb => ?_,h.ordered⟩
    have := h.below b hb
    change b.ptr.toNat+b.size ≤ (a.base+alup).toNat
    omega

theorem startMalloc_stacked {n : BitVec 64} (h : a.Stacked)
    (hn : (alignUp a.cnt 8).toNat+n.toNat < 2^64) (hstep : startMalloc a n = some a') :
    a'.Stacked := by
  have hcnt := h.cnt
  unfold startMemEnd at hcnt
  have hup : a.cnt.toNat ≤ (alignUp a.cnt 8).toNat := le_alignUp (k:=3) (by decide) (by omega)
  have hsum : (alignUp a.cnt 8+n).toNat = (alignUp a.cnt 8).toNat+n.toNat := by
    rw [BitVec.toNat_add,Nat.mod_eq_of_lt hn]
  simp only [startMalloc,Option.ite_none_left_eq_some,Bool.or_eq_true,decide_eq_true_eq,
    Option.some.injEq] at hstep
  obtain ⟨hroom,rfl⟩ := hstep
  have hlast : ({ a with last := alignUp a.cnt 8 } : Arena).Stacked :=
    ⟨h.cnt,h.below,h.above,h.ordered⟩
  exact hlast.push hup (by omega) (by omega)

theorem startAlignedAlloc_stacked {k : Fin 64} {len : BitVec 64} (h : a.Stacked)
    (hlen : len.toNat+2^k.val ≤ 2^64)
    (hn : (alignUp a.cnt (1#64 <<< k.val)).toNat+(alignUp len (1#64 <<< k.val)).toNat < 2^64)
    (hstep : startAlignedAlloc a (1#64 <<< k.val) len = some a') : a'.Stacked := by
  have hcnt := h.cnt
  unfold startMemEnd at hcnt
  have hpow : 2^k.val ≤ 2^63 := Nat.pow_le_pow_right (by omega) (by omega)
  have hup : a.cnt.toNat ≤ (alignUp a.cnt (1#64 <<< k.val)).toNat := le_alignUp k.isLt (by omega)
  have hsum : (alignUp a.cnt (1#64 <<< k.val)+alignUp len (1#64 <<< k.val)).toNat =
      (alignUp a.cnt (1#64 <<< k.val)).toNat+(alignUp len (1#64 <<< k.val)).toNat := by
    rw [BitVec.toNat_add,Nat.mod_eq_of_lt hn]
  have hle := le_alignUp k.isLt hlen
  simp only [startAlignedAlloc,Option.ite_none_left_eq_some,Bool.or_eq_true,decide_eq_true_eq,
    Option.some.injEq] at hstep
  obtain ⟨hroom,rfl⟩ := hstep
  exact h.push hup (by omega) (by omega)

theorem startCalloc_stacked {num size : BitVec 64} (h : a.Stacked)
    (hn : (alignUp a.cnt 64).toNat+num.toNat*size.toNat ≤ startMemEnd)
    (hstep : startCalloc a num size = some a') : a'.Stacked := by
  have hcnt := h.cnt
  have hend : startMemEnd < 2^64 := by decide
  unfold startMemEnd at hcnt
  have hup : a.cnt.toNat ≤ (alignUp a.cnt 64).toNat := le_alignUp (k:=6) (by decide) (by omega)
  have hsum : (alignUp a.cnt 64+num*size).toNat =
      (alignUp a.cnt 64).toNat+num.toNat*size.toNat := by
    rw [BitVec.toNat_add,BitVec.toNat_mul,Nat.add_mod_mod,Nat.mod_eq_of_lt (by omega)]
  simp only [startCalloc,Option.ite_none_left_eq_some,Option.some.injEq] at hstep
  obtain ⟨hroom,rfl⟩ := hstep
  exact h.push hup (by omega) (by omega)

/-- The newest block is given back first. -/
theorem startRealloc_stacked {debug : Bool} {b : Block} {rest : List Block} {size : BitVec 64}
    (h : a.Stacked) (hb : a.blocks = b::rest) (hlast : b.ptr = a.base+a.last)
    (hn : (alignUp a.last 8).toNat+size.toNat < 2^64)
    (hstep : startRealloc debug a b size = some a') : a'.Stacked := by
  have hmem : b ∈ a.blocks := by
    rw [hb]
    exact List.mem_cons_self
  have hlo := h.above b hmem
  have hhi := h.below b hmem
  have hcnt := h.cnt
  have hord := h.ordered
  have hoff : a.last.toNat = b.ptr.toNat-a.base.toNat := by
    rw [hlast] at hlo ⊢
    bv_omega
  rw [hb,List.pairwise_cons] at hord
  have hback : ({ a with cnt := a.last, blocks := rest } : Arena).Stacked := by
    refine ⟨?_,fun b' hb' => ?_,fun b' hb' => h.above b' ?_,hord.2⟩
    · change a.last.toNat ≤ startMemEnd
      omega
    · have := hord.1 b' hb'
      change b'.ptr.toNat+b'.size ≤ a.base.toNat+a.last.toNat
      omega
    · rw [hb]
      exact List.mem_cons_of_mem _ hb'
  simp only [startRealloc,Option.ite_none_left_eq_some,hb,List.erase_cons_head] at hstep
  exact startMalloc_stacked hback hn hstep.2

theorem step_stacked {debug : Bool} {e : Event} (h : a.Stacked) (hok : orderly a e)
    (hstep : step debug a e = some a') : a'.Stacked := by
  cases e with
  | malloc n => exact startMalloc_stacked h hok hstep
  | alignedAlloc k len => exact startAlignedAlloc_stacked h hok.1 hok.2 hstep
  | calloc num size => exact startCalloc_stacked h hok hstep
  | realloc i size =>
    obtain ⟨rfl,hlast,hn⟩ := hok
    obtain ⟨b,hb,hstep⟩ := Option.bind_eq_some_iff.mp hstep
    obtain ⟨rest,hrest⟩ : ∃ rest, a.blocks = b::rest := by
      cases hblocks : a.blocks with
      | nil => simp [hblocks] at hb
      | cons b' rest => exact ⟨rest,by simpa [hblocks] using hb⟩
    exact startRealloc_stacked h hrest (hlast b (by rw [hrest]; rfl)) hn hstep
  | reallocNull size => exact startMalloc_stacked h hok hstep

/-- The arena of a new task: nothing is allocated, and `miniop_last` holds whatever it held. -/
def Arena.Fresh (a : Arena) : Prop := a.cnt = 0 ∧ a.blocks = []

/-- In a run whose calls are all orderly every block lies in the region, and two blocks in use have
no byte in common. -/
theorem blocks_disjoint {debug : Bool} {es : List Event} (hfresh : a.Fresh)
    (hok : Machine.Along (step debug) orderly a es)
    (hrun : Machine.run (step debug) a es = some a') :
    (∀ b ∈ a'.blocks, b.Inside a') ∧ a'.blocks.Pairwise Block.Disjoint := by
  have hstart : a.Stacked := by
    refine ⟨?_,?_,?_,?_⟩ <;> simp [hfresh.1,hfresh.2]
  have hend : a'.Stacked := Machine.run_invariant step_stacked hstart hok hrun
  refine ⟨fun b hb => ⟨hend.above b hb,?_⟩,hend.ordered.imp Or.inr⟩
  have := hend.below b hb
  have := hend.cnt
  omega

end Calls

/-- The arena at address `0x10000000`. -/
def sample : Arena := ⟨0x10000000,0,0,[],by decide⟩

theorem blocks_disjoint_four :
    ∃ a ∈ Machine.run (step false) sample [.malloc 100,.calloc 3 5,.alignedAlloc 12 10,.malloc 8,
        .realloc 0 200],
      a.blocks.length = 4 ∧ (∀ b ∈ a.blocks, b.Inside a) ∧ a.blocks.Pairwise Block.Disjoint := by
  obtain ⟨a,ha,hlen⟩ : ∃ a ∈ Machine.run (step false) sample [.malloc 100,.calloc 3 5,
      .alignedAlloc 12 10,.malloc 8,.realloc 0 200], a.blocks.length = 4 := by
    decide +kernel
  exact ⟨a,ha,hlen,blocks_disjoint ⟨rfl,rfl⟩ (by decide +kernel) ha⟩

/-- A size that wraps around is granted, `start_calloc` goes past the end of the region, and
`start_realloc` of a block that is not the newest returns memory that is in use. -/
theorem blocks_overlap :
    (∃ a ∈ Machine.run (step false) sample [.malloc 16,.malloc (BitVec.ofNat 64 (2^64-8))],
      ∃ b ∈ a.blocks, b.size = 2^64-8 ∧ startMemEnd < b.size) ∧
    (∃ a ∈ Machine.run (step false) sample [.calloc 1 (BitVec.ofNat 64 (2^30+1))],
      ∃ b ∈ a.blocks, b.ptr = sample.base ∧ startMemEnd < b.size) ∧
    ∃ a ∈ Machine.run (step false) sample [.malloc 16,.calloc 1 64,.realloc 1 100],
      a.blocks = [⟨sample.base,100⟩,⟨sample.base+64,64⟩] := by
  decide +kernel

end Vessel.StartAlloc
