import Mathlib

/-! Packet buffers: the window of data inside a buffer of fixed size, and what moves it. -/
namespace Vessel
namespace Packet

/-- The part of `struct mbuf` that is about its buffer.  `mem` has the bytes at each distance from
`head`, and `data` is such a distance too. -/
structure Mbuf where
  mem : ℕ → UInt8
  headLen : ℕ
  data : ℕ
  len : ℕ

namespace Mbuf

/-- The data that the mbuf has. -/
def bytes (m : Mbuf) : List UInt8 := (List.range m.len).map fun i => m.mem (m.data+i)

/-- `__mbuf_pull`. -/
def advance (m : Mbuf) (n : ℕ) : Mbuf := { m with data := m.data+n,len := m.len-n }

/-- None stands for a `BUG_ON` that fires, here and below. -/
def pull (m : Mbuf) (n : ℕ) : Option Mbuf := if n > m.len then none else some (m.advance n)

/-- None stands for `NULL`. -/
def pullOrNull (m : Mbuf) (n : ℕ) : Option Mbuf := if m.len ≥ n then some (m.advance n) else none

def push (m : Mbuf) (n : ℕ) : Option Mbuf :=
  if m.data < n then none else some { m with data := m.data-n,len := (m.len+n)%2^32 }

def put (m : Mbuf) (n : ℕ) : Option Mbuf :=
  let m := { m with len := (m.len+n)%2^32 }
  if m.len > m.headLen then none else some m

def trim (m : Mbuf) (n : ℕ) : Option Mbuf :=
  if n > m.len then none else some { m with len := m.len-n }

def reset (m : Mbuf) (offset : ℕ) : Option Mbuf :=
  let totalLen := (m.data+m.len)%2^32
  if offset > totalLen then none else some { m with data := offset,len := totalLen-offset }

/-- `mbuf_init`, for a buffer with any content. -/
def init (mem : ℕ → UInt8) (headLen reserveLen : ℕ) : Mbuf := ⟨mem,headLen,reserveLen,0⟩

/-- `memcpy` to the distance `off`. -/
def write (m : Mbuf) (off : ℕ) (bs : List UInt8) : Mbuf :=
  { m with mem := fun i => if off ≤ i then bs.getD (i-off) (m.mem i) else m.mem i }

/-- `mbuf_push_hdr`, and the stores that fill the header in. -/
def prepend (m : Mbuf) (bs : List UInt8) : Option Mbuf :=
  (m.push bs.length).map fun m => m.write m.data bs

/-- What a load of 16 bits gives on a little-endian machine. -/
def load16 (m : Mbuf) (i : ℕ) : ℕ := (m.mem i).toNat+256*(m.mem (i+1)).toNat

/-- `ntoh16` of such a load. -/
def ntoh16 (m : Mbuf) (i : ℕ) : ℕ := 256*(m.mem i).toNat+(m.mem (i+1)).toNat

section Bytes

variable {m m' : Mbuf} {n off : ℕ} {bs : List UInt8}

@[simp] theorem length_bytes (m : Mbuf) : m.bytes.length = m.len := by simp [bytes]

theorem bytes_advance (m : Mbuf) (n : ℕ) : (m.advance n).bytes = m.bytes.drop n := by
  refine List.ext_getElem (by simp [advance]) fun i hi hi' => ?_
  simp [bytes,advance,Nat.add_assoc]

theorem write_mem_of_le (h : off+bs.length ≤ n) : (m.write off bs).mem n = m.mem n := by
  simp only [write]
  split_ifs
  · rw [List.getD_eq_getElem?_getD,List.getElem?_eq_none (by omega),Option.getD_none]
  · rfl

theorem write_mem_add (h : n < bs.length) : (m.write off bs).mem (off+n) = bs[n] := by
  simp [write,h]

theorem prepend_eq_some : m.prepend bs = some m' ↔ bs.length ≤ m.data ∧
    m' = { m with data := m.data-bs.length,len := (m.len+bs.length)%2^32 }.write
      (m.data-bs.length) bs := by
  simp only [prepend,push]
  split_ifs with h
  · simp [Nat.not_le.mpr h]
  · simp [Nat.not_lt.mp h,eq_comm]

/-- A header leaves the data behind it, and the end of the data, where they are. -/
theorem prepend_keeps (h : m.prepend bs = some m') (hlen : m.data+m.len < 2^32) :
    m'.data+bs.length = m.data ∧ m'.data+m'.len = m.data+m.len ∧
      ∀ i, m.data ≤ i → m'.mem i = m.mem i := by
  obtain ⟨hroom,rfl⟩ := prepend_eq_some.mp h
  refine ⟨by simp only [write]; omega,by simp only [write]; omega,fun i hi => ?_⟩
  exact write_mem_of_le (by omega)

theorem bytes_prepend (h : m.prepend bs = some m') (hlen : m.data+m.len < 2^32) :
    m'.bytes = bs++m.bytes := by
  obtain ⟨hroom,hend,hkeeps⟩ := prepend_keeps h hlen
  refine List.ext_getElem (by simp; omega) fun i hi hi' => ?_
  rw [List.getElem_append]
  simp only [bytes,List.getElem_map,List.getElem_range]
  split_ifs with hbs
  · obtain ⟨-,rfl⟩ := prepend_eq_some.mp h
    exact write_mem_add hbs
  · rw [hkeeps _ (by omega)]
    congr 1
    omega

end Bytes

/-! ### The headers of a packet -/

section Headers

variable {m m' : Mbuf} {hs : List (List UInt8)}

theorem prepends_keep (h : hs.foldlM prepend m = some m') (hlen : m.data+m.len < 2^32) :
    m'.data+hs.flatten.length = m.data ∧ m'.data+m'.len = m.data+m.len ∧
      m'.bytes = hs.reverse.flatten++m.bytes := by
  induction hs generalizing m with
  | nil =>
    obtain rfl := Option.some.inj h
    exact ⟨rfl,rfl,rfl⟩
  | cons b hs ih =>
    rw [List.foldlM_cons] at h
    obtain ⟨m₁,h₁,h⟩ := Option.bind_eq_some_iff.mp h
    obtain ⟨hdata,hend,-⟩ := prepend_keeps h₁ hlen
    obtain ⟨hdata',hend',hbytes⟩ := ih h (by omega)
    refine ⟨?_,hend'.trans hend,?_⟩
    · rw [List.flatten_cons,List.length_append]
      omega
    · rw [hbytes,bytes_prepend h₁ hlen,List.reverse_cons,List.flatten_append,List.flatten_singleton,
        List.append_assoc]

theorem prepends_isSome (hroom : hs.flatten.length ≤ m.data) :
    ∃ m', hs.foldlM prepend m = some m' := by
  induction hs generalizing m with
  | nil => exact ⟨m,rfl⟩
  | cons b hs ih =>
    rw [List.flatten_cons,List.length_append] at hroom
    obtain ⟨m₁,h₁,hdata⟩ : ∃ m₁, m.prepend b = some m₁ ∧ m₁.data = m.data-b.length :=
      ⟨_,prepend_eq_some.mpr ⟨by omega,rfl⟩,rfl⟩
    obtain ⟨m',h⟩ := ih (m:=m₁) (by omega)
    refine ⟨m',?_⟩
    rw [List.foldlM_cons,h₁]
    exact h

theorem pulls_eq_some (ns : List ℕ) (h : ns.sum ≤ m.len) :
    ns.foldlM pull m = some (m.advance ns.sum) := by
  induction ns generalizing m with
  | nil => rfl
  | cons n ns ih =>
    rw [List.sum_cons] at h ⊢
    rw [List.foldlM_cons,pull,if_neg (by omega)]
    refine (ih (by simp only [advance]; omega)).trans ?_
    simp only [advance,Nat.add_assoc,Nat.sub_sub]

/-- Headers that the layers put in front of the data are there in the order of the layers, and the
pulls of the receiving side, in the opposite order, leave the data alone. -/
theorem headers_round_trip (m : Mbuf) (hs : List (List UInt8)) (hlen : m.data+m.len < 2^32) :
    ((∃ m', hs.foldlM prepend m = some m') ↔ hs.flatten.length ≤ m.data) ∧
    ∀ m', hs.foldlM prepend m = some m' → m'.bytes = hs.reverse.flatten++m.bytes ∧
      ∃ m'', (hs.reverse.map List.length).foldlM pull m' = some m'' ∧
        m''.bytes = m.bytes ∧ m''.data = m.data ∧ m''.len = m.len := by
  refine ⟨⟨?_,prepends_isSome⟩,fun m' h => ?_⟩
  · rintro ⟨m',h⟩
    obtain ⟨hdata,-⟩ := prepends_keep h hlen
    omega
  · obtain ⟨hdata,hend,hbytes⟩ := prepends_keep h hlen
    have hsum : (hs.reverse.map List.length).sum = hs.flatten.length := by
      rw [List.map_reverse,List.sum_reverse,List.length_flatten]
    have hpull := pulls_eq_some (m:=m') (hs.reverse.map List.length) (by omega)
    refine ⟨hbytes,_,hpull,?_,by simp only [advance]; omega,by simp only [advance]; omega⟩
    rw [bytes_advance,hbytes,← List.length_flatten,List.drop_left]

/-- An ethernet header of two bytes, an IP header of one and two bytes of data. -/
theorem headers_round_trip_two :
    ∃ m' m'', [[1],[2,3]].foldlM prepend ⟨fun _ => 7,128,64,2⟩ = some m' ∧
      m'.bytes = [2,3,1,7,7] ∧ [2,1].foldlM pull m' = some m'' ∧ m''.bytes = [7,7] ∧
      m''.data = 64 := by
  obtain ⟨hiff,hbytes⟩ := headers_round_trip ⟨fun _ => 7,128,64,2⟩ [[1],[2,3]] (by decide)
  obtain ⟨m',h⟩ := hiff.mpr (by decide)
  obtain ⟨hm',m'',hm'',hdata,hat,-⟩ := hbytes m' h
  exact ⟨m',m'',h,hm',hm'',hdata,hat⟩

end Headers

end Mbuf
end Packet
end Vessel
