import Mathlib.Data.List.FinRange
import Mathlib.Data.List.Nodup
import Vessel.CxltpRing

/-! The release of a transmit ring: its index goes back to the pool of rings, the buffers in its slots
and its storage to their caches. -/
namespace Vessel
namespace CxltpRing

open Cxltp SlotRing

variable {P : Type}

/-- What a release did: the words that it read, what it gave to the two caches, and the bits that it
cleared in the pool. -/
structure Released (P : Type) where
  reads : List ℕ
  buffers : List P
  storage : List ℕ
  indices : List ℕ

/-- `cxltp_ring_put_to_pool`, as the bits that it clears. -/
def ringPutToPool (alloced : ℕ → Bool) (index : ℕ) : List ℕ := if alloced index then [index] else []

/-- `cxltp_ring_release` of the ring with its slots from the word `start` on.  The loop has
`i <= out->end`, where `end` is the word behind the last slot. -/
def ringRelease (mem : ℕ → Option P) (alloced : ℕ → Bool) (start index : ℕ) : Released P :=
  let reads := List.range' start (msgRingLength+1)
  ⟨reads,reads.filterMap mem,[start],ringPutToPool alloced index⟩

variable {s : Sys P} {mem : ℕ → Option P} {start : ℕ}

/-- The buffers in the slots. -/
def Sys.stored (s : Sys P) : List P := (List.finRange msgRingLength).filterMap s.ring.slot

theorem mem_stored {m : P} : m ∈ s.stored ↔ ∃ i, s.ring.slot i = some m := by
  simp [Sys.stored]

theorem Inv.stored_nodup (h : Inv s) : s.stored.Nodup :=
  (List.nodup_finRange _).filterMap fun i j m hi hj => h.distinct i j m hi hj

/-- The loop comes to the word behind the slots too. -/
theorem buffers_ringRelease (hmem : ∀ i : Pos, mem (start+i) = s.ring.slot i) (alloced : ℕ → Bool)
    (index : ℕ) : (ringRelease mem alloced start index).buffers =
      s.stored++(mem (start+msgRingLength)).toList := by
  have hslots : (List.range' start msgRingLength).filterMap mem = s.stored := by
    have hwords : List.range' start msgRingLength =
        (List.finRange msgRingLength).map fun i => start+i.val := by
      rw [List.range'_eq_map_range,← List.map_coe_finRange_eq_range,List.map_map]
      rfl
    rw [hwords,List.filterMap_map,Sys.stored]
    exact List.filterMap_congr fun i _ => hmem i
  rw [ringRelease,List.range'_concat,List.filterMap_append,hslots]
  cases hend : mem (start+msgRingLength) <;> simp [hend]

/-- Whatever was written and read, the release reads a word that is not of its ring.  The buffers of
the ring, and no others, are given back just once if that word is `NULL`, and only then. -/
theorem ring_release_oversteps [DecidableEq P] {es : List (Event P)} (hs : run es = some s)
    (hmem : ∀ i : Pos, mem (start+i) = s.ring.slot i) (alloced : ℕ → Bool) (index : ℕ)
    (hindex : alloced index = true) :
    let r := ringRelease mem alloced start index
    ¬(∀ a ∈ r.reads, a < start+msgRingLength) ∧
    r.reads = List.range' start msgRingLength++[start+msgRingLength] ∧
    ((∀ m, r.buffers.count m = if ∃ i, s.ring.slot i = some m then 1 else 0) ↔
      mem (start+msgRingLength) = none) ∧
    r.storage = [start] ∧ r.indices = [index] := by
  have h : Inv s := Machine.run_keeps step_inv inv_init hs
  have hcount : ∀ m, s.stored.count m = if ∃ i, s.ring.slot i = some m then 1 else 0 := fun m => by
    rw [h.stored_nodup.count,if_congr mem_stored rfl rfl]
  have hreads : (ringRelease mem alloced start index).reads =
      List.range' start msgRingLength++[start+msgRingLength] := by
    rw [ringRelease,List.range'_concat,Nat.one_mul]
  refine ⟨?_,hreads,?_,rfl,?_⟩
  · intro hinside
    exact Nat.lt_irrefl _ (hinside (start+msgRingLength) (by simp [hreads]))
  · simp only [buffers_ringRelease hmem,List.count_append,hcount]
    cases mem (start+msgRingLength) with
    | none => simp
    | some m =>
      simp only [reduceCtorEq,iff_false,not_forall]
      exact ⟨m,by simp⟩
  · rw [ringRelease,ringPutToPool,if_pos hindex]

/-- Two rings, one behind the other. -/
def rings (s t : Sys ℕ) (a : ℕ) : Option ℕ :=
  if h : a < msgRingLength then s.ring.slot ⟨a,h⟩
  else if h : a-msgRingLength < msgRingLength then t.ring.slot ⟨a-msgRingLength,h⟩
  else none

theorem ring_release_oversteps_message : ∃ s ∈ run (fillNew 7++[.writer,.writer,.writer,.writer]),
    let r := ringRelease (rings s Sys.init) (fun _ => true) 0 3
    ¬(∀ a ∈ r.reads, a < msgRingLength) ∧
      (∀ m, r.buffers.count m = if ∃ i, s.ring.slot i = some m then 1 else 0) ∧
      r.storage = [0] ∧ r.indices = [3] := by
  obtain ⟨s,hs,-⟩ : ∃ s ∈ run (fillNew 7++[.writer,.writer,.writer,.writer]),
      s.pushed = [7] := by
    decide +kernel
  have hmem : ∀ i : Pos, rings s Sys.init (0+i) = s.ring.slot i := fun i => by
    rw [rings,Nat.zero_add,dif_pos i.isLt]
  obtain ⟨hreads,-,hbuffers,hback⟩ := ring_release_oversteps hs hmem (fun _ => true) 3 rfl
  exact ⟨s,hs,by simpa using hreads,hbuffers.mpr rfl,hback⟩

/-- The release of an empty ring gives back the message that is unread in the ring behind it. -/
theorem ring_release_neighbour : ∃ t ∈ run (fillNew 7++[.writer,.writer,.writer,.writer]),
    t.ring.toList = [some 7] ∧
      (ringRelease (rings Sys.init t) (fun _ => true) 0 3).buffers = [7] := by
  decide +kernel

end CxltpRing
end Vessel
