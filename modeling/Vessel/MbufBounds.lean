import Vessel.Machine
import Vessel.Mbuf

/-! The data of an mbuf in its buffer, over all sequences of calls that end without a `BUG_ON`. -/
namespace Vessel
namespace Packet

/-- A call with its `unsigned int` argument. -/
inductive Call where
  | push (n : BitVec 32)
  | put (n : BitVec 32)
  | pull (n : BitVec 32)
  | pullOrNull (n : BitVec 32)
  | trim (n : BitVec 32)
  | reset (offset : BitVec 32)

namespace Mbuf

def step (m : Mbuf) : Call → Option Mbuf
  | .push n => m.push n.toNat
  | .put n => m.put n.toNat
  | .pull n => m.pull n.toNat
  | .pullOrNull n => some ((m.pullOrNull n.toNat).getD m)
  | .trim n => m.trim n.toNat
  | .reset offset => m.reset offset.toNat

/-- The bytes that a call in `m` returns a pointer to: where they begin, and how many they are. -/
def returned (m : Mbuf) : Call → Option (ℕ × ℕ)
  | .push n => some (m.data-n.toNat,n.toNat)
  | .put n => some (m.data+m.len,n.toNat)
  | .pull n => some (m.data,n.toNat)
  | .pullOrNull n => if m.len ≥ n.toNat then some (m.data,n.toNat) else none
  | .trim n => some (m.data+(m.len-n.toNat),n.toNat)
  | .reset _ => none

/-- `mbuf_tailroom`: a difference of pointers less a length, as an `unsigned int`. -/
def tailroom (m : Mbuf) : BitVec 32 := BitVec.ofInt 32 (m.headLen-m.data-m.len)

/-- The data are inside the buffer, which begins at distance 0. -/
def Bounded (m : Mbuf) : Prop := m.data+m.len ≤ m.headLen

/-- The call leaves the data inside the buffer, with the tailroom that there is, and returns nothing
outside of it. -/
def Safe (m : Mbuf) (c : Call) : Prop :=
  (∀ m' ∈ m.step c, m'.Bounded ∧ (m'.tailroom.toNat : ℤ) = m'.headLen-m'.data-m'.len) ∧
    ∀ r ∈ m.returned c, r.1+r.2 ≤ m.headLen

/-- The bytes that `mbuf_put` appends fit behind the data. -/
def Fits (m : Mbuf) : Call → Prop
  | .put n => n.toNat ≤ m.headLen-(m.data+m.len)
  | _ => True

section Steps

variable {m m' : Mbuf} {c : Call}

theorem Bounded.tailroom_eq (h : m.Bounded) (hlen : m.headLen < 2^32) :
    (m.tailroom.toNat : ℤ) = m.headLen-m.data-m.len := by
  rw [Bounded] at h
  rw [tailroom,BitVec.toNat_ofInt]
  omega

/-- Only `mbuf_put` looks at something else than the place that its bytes come from. -/
theorem step_bounded (h : m.Bounded) (hlen : m.headLen < 2^32) (hs : m.step c = some m')
    (hfits : m.Fits c) :
    m'.Bounded ∧ m'.headLen = m.headLen ∧ ∀ r ∈ m.returned c, r.1+r.2 ≤ m.headLen := by
  rw [Bounded] at h
  cases c with
  | push n =>
    obtain ⟨hroom,hs⟩ := Option.ite_none_left_eq_some.mp hs
    cases hs
    refine ⟨?_,rfl,by simp [returned]; omega⟩
    simp only [Bounded]
    omega
  | put n =>
    obtain ⟨-,hs⟩ := Option.ite_none_left_eq_some.mp hs
    cases hs
    rw [Fits] at hfits
    refine ⟨?_,rfl,by simp [returned]; omega⟩
    simp only [Bounded]
    omega
  | pull n =>
    obtain ⟨hroom,hs⟩ := Option.ite_none_left_eq_some.mp hs
    cases hs
    refine ⟨?_,rfl,by simp [returned]; omega⟩
    simp only [Bounded,advance]
    omega
  | pullOrNull n =>
    cases hs
    by_cases hroom : m.len ≥ n.toNat
    · rw [pullOrNull,returned,if_pos hroom,if_pos hroom]
      refine ⟨?_,rfl,by simp; omega⟩
      simp only [Bounded,advance,Option.getD_some]
      omega
    · rw [pullOrNull,returned,if_neg hroom,if_neg hroom]
      exact ⟨h,rfl,by simp⟩
  | trim n =>
    obtain ⟨hroom,hs⟩ := Option.ite_none_left_eq_some.mp hs
    cases hs
    refine ⟨?_,rfl,by simp [returned]; omega⟩
    simp only [Bounded]
    omega
  | reset offset =>
    obtain ⟨hoff,hs⟩ := Option.ite_none_left_eq_some.mp hs
    cases hs
    refine ⟨?_,rfl,by simp [returned]⟩
    simp only [Bounded]
    omega

theorem safe_iff_fits (h : m.Bounded) (hlen : m.headLen < 2^32) (hs : m.step c = some m') :
    m.Safe c ↔ m.Fits c := by
  constructor
  · rintro ⟨-,hret⟩
    cases c with
    | put n =>
      have hend := hret _ rfl
      simp only at hend
      rw [Fits]
      omega
    | _ => trivial
  · intro hfits
    obtain ⟨hb,hlen',hret⟩ := step_bounded h hlen hs hfits
    refine ⟨fun u hu => ?_,hret⟩
    obtain rfl := Option.some.inj (hs.symm.trans hu)
    exact ⟨hb,hb.tailroom_eq (hlen' ▸ hlen)⟩

theorem along_safe_iff {cs : List Call} (h : m.Bounded) (hlen : m.headLen < 2^32)
    (hrun : (Machine.run step m cs).isSome) :
    Machine.Along step Safe m cs ↔ Machine.Along step Fits m cs := by
  induction cs generalizing m with
  | nil => exact Iff.rfl
  | cons c cs ih =>
    cases hs : m.step c with
    | none => simp [Machine.run,hs] at hrun
    | some u =>
      rw [Machine.run,hs] at hrun
      rw [Machine.Along,Machine.Along,safe_iff_fits h hlen hs]
      refine and_congr_right fun hfits => ?_
      obtain ⟨hb,hlen',-⟩ := step_bounded h hlen hs hfits
      simpa [hs] using ih hb (hlen' ▸ hlen) hrun

end Steps
end Mbuf

open Mbuf

/-- From an mbuf with a reserve below its length, calls that end without a `BUG_ON` keep the data
inside the buffer, its tailroom right and what they return inside the buffer, just if no `mbuf_put`
appends more than fits. -/
theorem mbuf_bounds_iff (mem : ℕ → UInt8) {headLen reserveLen : BitVec 32}
    (hreserve : reserveLen < headLen) {cs : List Call}
    (hrun : (Machine.run step (init mem headLen.toNat reserveLen.toNat) cs).isSome) :
    (init mem headLen.toNat reserveLen.toNat).Bounded ∧
    (Machine.Along step Safe (init mem headLen.toNat reserveLen.toNat) cs ↔
      Machine.Along step Fits (init mem headLen.toNat reserveLen.toNat) cs) := by
  have hb : (init mem headLen.toNat reserveLen.toNat).Bounded := Nat.le_of_lt hreserve
  exact ⟨hb,along_safe_iff hb headLen.isLt hrun⟩

theorem mbuf_bounds_iff_header :
    (init (fun _ => 0) 2048 128).Bounded ∧
    Machine.Along step Safe (init (fun _ => 0) 2048 128) [.put 100,.push 14,.pull 14,.reset 114] := by
  have hreserve : (128 : BitVec 32) < 2048 := by decide
  have hrun : (Machine.run step (init (fun _ => 0) 2048 128)
      [.put 100,.push 14,.pull 14,.reset 114]).isSome := rfl
  have h := mbuf_bounds_iff (fun _ => 0) hreserve hrun
  exact ⟨h.1,h.2.mpr (by simp [Machine.Along,Fits,init])⟩

/-- A put of as many bytes as the whole buffer has passes the check after a reserve: the data reach
past the end, and the tailroom wraps. -/
theorem mbuf_put_overflows :
    ∃ m, Machine.run step (init (fun _ => 0) 2048 128) [.put 2048] = some m ∧ ¬m.Bounded ∧
      m.tailroom.toNat = 2^32-128 := by
  refine ⟨⟨fun _ => 0,2048,128,2048⟩,rfl,?_,by decide⟩
  rw [Bounded]
  decide

end Packet
end Vessel
