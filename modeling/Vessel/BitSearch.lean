import Vessel.BitWords

/-! The search for bits in an array of words (`base/bitmap.c`), and the loops over the bits found. -/
namespace Vessel
namespace BitWords

/-- What a search comes to.  `outside` stands for a read past the words of the bitmap. -/
inductive Search where
  | found (pos : ℕ)
  | outside (word : ℕ)
  | running

/-- The value of an `int`. -/
def toInt32 (x : ℤ) : ℤ := x.bmod (2^32)

/-- `BITMAP_POS_IDX`: the `int` is divided as a `size_t`. -/
def posIdx (idx : ℤ) : ℕ := (idx%2^64).toNat/64

/-- The loop of `bitmap_find_next`, at most `fuel` rounds of it. -/
def findLoop (w : BitWords) (nbits : ℕ) (invert : Bool) : ℕ → ℤ → BitVec 64 → Search
  | 0,_,_ => .running
  | fuel+1,idx,mask =>
    if idx < nbits then
      if posIdx idx < longSize nbits then
        let val := (if invert then ~~~w (posIdx idx) else w (posIdx idx)) &&& mask
        if val ≠ 0 then .found (min (idx.toNat+val.ctz.toNat) nbits)
        else w.findLoop nbits invert fuel (toInt32 (idx+64)) (BitVec.allOnes 64)
      else .outside (posIdx idx)
    else .found nbits

def findNext (w : BitWords) (nbits pos : ℕ) (invert : Bool) : Search :=
  w.findLoop nbits invert (longSize nbits+1) (64*(pos/64) : ℕ) (~~~((1#64 <<< (pos%64))-1))

/-- The positions that `bitmap_for_each_set` or `bitmap_for_each_cleared` visits from `pos` on. -/
def forEach (w : BitWords) (nbits : ℕ) (invert : Bool) : ℕ → ℕ → List ℕ
  | 0,_ => []
  | fuel+1,pos => match w.findNext nbits pos invert with
    | .found p => if p < nbits then p::w.forEach nbits invert fuel (p+1) else []
    | _ => []

/-- A bit that the search looks for. -/
def hit (w : BitWords) (invert : Bool) (i : ℕ) : Bool := w.bits i ^^ invert

/-- The first position from `pos` on at which `b` holds, or `nbits`. -/
structure First (b : ℕ → Bool) (nbits pos p : ℕ) : Prop where
  ge : pos ≤ p
  le : p ≤ nbits
  before : ∀ i, pos ≤ i → i < p → b i = false
  at_ : p < nbits → b p = true

variable {w : BitWords} {invert : Bool} {nbits pos : ℕ}

theorem hit_eq (k i : ℕ) (hi : i < 64) :
    w.hit invert (64*k+i) = (if invert then ~~~w k else w k).getLsbD i := by
  have hk : (64*k+i)/64 = k ∧ (64*k+i)%64 = i := by omega
  rw [hit,bits,hk.1,hk.2]
  cases invert <;> simp [hi]

theorem startMask_getLsbD {k i : ℕ} (hi : i < 64) (hk : k < 64) :
    (~~~((1#64 <<< k)-1)).getLsbD i = decide (k ≤ i) := by
  have hones : (1#64 <<< k)-1 = BitVec.ofNat 64 (2^k-1) := by
    apply BitVec.eq_of_toNat_eq
    have hlt : 2^k < 2^64 := Nat.pow_lt_pow_right (by decide) hk
    have hpos : 0 < 2^k := Nat.two_pow_pos k
    simp only [BitVec.toNat_sub,BitVec.toNat_shiftLeft,BitVec.toNat_ofNat,Nat.shiftLeft_eq,
      Nat.one_mod_two_pow (show 0 < 64 by decide),Nat.one_mul]
    change (2^64-1+2^k%2^64)%2^64 = _
    omega
  rw [BitVec.getLsbD_not,hones,BitVec.getLsbD_ofNat,Nat.testBit_two_pow_sub_one]
  by_cases h : i < k <;> simp [hi,h] <;> omega

theorem toInt32_eq {k : ℕ} (hk : 64*k < 2^31) : toInt32 (64*k : ℕ) = (64*k : ℕ) := by
  simp only [toInt32,Int.bmod_def]
  omega

/-- From word `k` on, with no such bit before it; `n` words are left. -/
theorem findLoop_spec {n : ℕ} (hn : 64*longSize nbits < 2^31) (hpos : pos ≤ nbits) {k fuel : ℕ}
    {mask : BitVec 64} (hk : longSize nbits = k+n) (hfuel : n < fuel) (hstart : pos < 64*(k+1))
    (hmask : ∀ i < 64, mask.getLsbD i = decide (pos ≤ 64*k+i))
    (hno : ∀ i, pos ≤ i → i < 64*k → w.hit invert i = false) :
    ∃ p, w.findLoop nbits invert fuel (64*k : ℕ) mask = .found p ∧
      First (w.hit invert) nbits pos p := by
  have hsize := hk
  rw [longSize] at hsize
  induction n generalizing k fuel mask with
  | zero =>
    obtain ⟨fuel,rfl⟩ := Nat.exists_eq_succ_of_ne_zero (Nat.ne_zero_of_lt hfuel)
    have hge : ¬((64*k : ℕ) : ℤ) < nbits := by omega
    refine ⟨nbits,by rw [findLoop,if_neg hge],⟨hpos,Nat.le_refl _,fun i hi hi' => ?_,?_⟩⟩
    · exact hno i hi (by omega)
    · exact fun h => absurd h (Nat.lt_irrefl _)
  | succ n ih =>
    obtain ⟨fuel,rfl⟩ := Nat.exists_eq_succ_of_ne_zero (Nat.ne_zero_of_lt hfuel)
    have hword : posIdx ((64*k : ℕ) : ℤ) = k := by
      rw [posIdx]
      omega
    have hlt : ((64*k : ℕ) : ℤ) < nbits := by omega
    rw [findLoop,if_pos hlt,hword,if_pos (by omega)]
    dsimp only
    generalize hval : (if invert = true then ~~~w k else w k) &&& mask = val
    have hbit : ∀ i < 64, val.getLsbD i = (w.hit invert (64*k+i) && decide (pos ≤ 64*k+i)) := by
      intro i hi
      rw [← hval,BitVec.getLsbD_and,hit_eq k i hi,hmask i hi]
    split_ifs with hzero
    · have hset := BitVec.getLsbD_true_ctz_of_ne_zero hzero
      have hc : val.ctz.toNat < 64 := BitVec.lt_of_getLsbD hset
      have hfirst := hset
      rw [hbit _ hc,Bool.and_eq_true,decide_eq_true_eq] at hfirst
      refine ⟨_,rfl,⟨by omega,Nat.min_le_right _ _,fun i hi hi' => ?_,fun hp => ?_⟩⟩
      · by_cases hbefore : i < 64*k
        · exact hno i hi hbefore
        · have hclear : val.getLsbD (i-64*k) = false := BitVec.getLsbD_false_of_lt_ctz (by omega)
          rw [hbit _ (by omega)] at hclear
          have hadd : 64*k+(i-64*k) = i := by omega
          simpa [hadd,hi] using hclear
      · have hp' : min (((64*k : ℕ) : ℤ).toNat+val.ctz.toNat) nbits = 64*k+val.ctz.toNat := by omega
        rw [hp']
        exact hfirst.1
    · have hzero := not_not.mp hzero
      have hnext : toInt32 (((64*k : ℕ) : ℤ)+64) = (64*(k+1) : ℕ) :=
        toInt32_eq (k:=k+1) (by omega)
      rw [hnext]
      refine ih (by omega) (by omega) (by omega) (fun i hi => ?_) (fun i hi hi' => ?_) (by omega)
      · rw [BitVec.getLsbD_allOnes]
        simp [hi]
        omega
      · by_cases hbefore : i < 64*k
        · exact hno i hi hbefore
        · have hclear := hbit (i-64*k) (by omega)
          have hadd : 64*k+(i-64*k) = i := by omega
          rw [hzero,hadd] at hclear
          simpa [hi] using hclear.symm

theorem findNext_spec (w : BitWords) (invert : Bool) (hn : 64*longSize nbits < 2^31)
    (hpos : pos ≤ nbits) :
    ∃ p, w.findNext nbits pos invert = .found p ∧ First (w.hit invert) nbits pos p := by
  have hk : longSize nbits = pos/64+(longSize nbits-pos/64) := by
    rw [longSize]
    omega
  refine findLoop_spec hn hpos hk (by omega) (by omega) (fun i hi => ?_) fun i hi hi' => by omega
  rw [startMask_getLsbD hi (Nat.mod_lt _ (by decide))]
  congr 1
  exact propext (by omega)

theorem forEach_eq (hn : 64*longSize nbits < 2^31) {fuel : ℕ} (hpos : pos ≤ nbits)
    (hfuel : nbits-pos < fuel) :
    w.forEach nbits invert fuel pos = (List.range' pos (nbits-pos)).filter (w.hit invert) := by
  induction fuel generalizing pos with
  | zero => omega
  | succ fuel ih =>
    obtain ⟨p,hfound,hp⟩ := findNext_spec w invert hn hpos
    have hge := hp.ge
    have hle := hp.le
    -- no bit before the position that was found
    have hsplit : List.range' pos (nbits-pos) = List.range' pos (p-pos)++List.range' p (nbits-p) := by
      have happend := List.range'_append_1 (s:=pos) (m:=p-pos) (n:=nbits-p)
      rw [show pos+(p-pos) = p by omega,show p-pos+(nbits-p) = nbits-pos by omega] at happend
      exact happend.symm
    have hbefore : (List.range' pos (p-pos)).filter (w.hit invert) = [] := by
      rw [List.filter_eq_nil_iff]
      intro i hi
      rw [List.mem_range'_1] at hi
      simp [hp.before i hi.1 (by omega)]
    rw [forEach,hfound,hsplit,List.filter_append,hbefore,List.nil_append]
    dsimp only
    by_cases hend : p < nbits
    · rw [if_pos hend,ih hend (by omega),show nbits-p = nbits-(p+1)+1 by omega,List.range'_succ,
        List.filter_cons_of_pos (hp.at_ hend)]
    · rw [if_neg hend,show nbits-p = 0 by omega]
      rfl

/-- A search returns the first position from `pos` on, without a read past the words, and the loops
visit all positions, once and in order, as long as the words end before an `int` does. -/
theorem bitmap_search (w : BitWords) (invert : Bool) {nbits pos : ℕ} (hn : nbits ≤ 2^31-64)
    (hpos : pos ≤ nbits) :
    (∃ p, w.findNext nbits pos invert = .found p ∧ First (w.hit invert) nbits pos p) ∧
    w.forEach nbits false (nbits+1) 0 = w.bits.setBits nbits ∧
    w.forEach nbits true (nbits+1) 0 = w.bits.clearedBits nbits := by
  have hn : 64*longSize nbits < 2^31 := by
    rw [longSize]
    omega
  refine ⟨findNext_spec w invert hn hpos,?_⟩
  rw [forEach_eq hn (Nat.zero_le _) (by omega),forEach_eq hn (Nat.zero_le _) (by omega),
    Bitmap.setBits,Bitmap.clearedBits,List.range_eq_range']
  constructor
  · exact List.filter_congr fun i _ => Bool.xor_false _
  · exact List.filter_congr fun i _ => Bool.xor_true _

/-- Bit 3 of two words; the search starts behind the first. -/
theorem bitmap_search_two_words :
    (∃ p, findNext (fun _ => 8) 70 4 false = .found p ∧ First (hit (fun _ => 8) false) 70 4 p) ∧
    forEach (fun _ => 8) 70 false 71 0 = Bitmap.setBits (bits fun _ => 8) 70 ∧
    forEach (fun _ => 8) 70 true 71 0 = Bitmap.clearedBits (bits fun _ => 8) 70 :=
  bitmap_search (fun _ => 8) false (by decide) (by decide)

end BitWords
end Vessel
