import Mathlib.Data.List.Basic
import Mathlib.Data.List.Forall2
import Mathlib.Data.List.Infix
import Mathlib.Tactic.Common

/-! A queue of pieces of a stream.  The stream grows at its end, and of the pieces at the front the
bytes before a position `u` may have been taken away. -/
namespace Vessel.Pieces

open List

/-- Bytes of a stream from a position on. -/
structure Piece (α : Type*) where
  start : ℕ
  bytes : List α

variable {α : Type*} {stream : List α} {p p' : Piece α} {ps qs : List (Piece α)}
  {u u' b e q i j : ℕ}

def Piece.stop (p : Piece α) : ℕ := p.start+p.bytes.length

structure Piece.In (p : Piece α) (stream : List α) : Prop where
  start_le : p.start ≤ stream.length
  bytes : p.bytes <+: stream.drop p.start

/-- The pieces lead from `b` to `e`: each begins where the one before it ends, or after that but
not after `u`. -/
def Chain (stream : List α) (u : ℕ) : ℕ → List (Piece α) → ℕ → Prop
  | b,[],e => b = e
  | b,p::ps,e =>
    b ≤ p.start ∧ (p.start = b ∨ p.start ≤ u) ∧ p.In stream ∧ Chain stream u p.stop ps e

/-! ### Pieces -/

theorem Piece.In.stop_le (h : p.In stream) : p.stop ≤ stream.length := by
  have hlen := h.bytes.length_le
  have := h.start_le
  rw [length_drop] at hlen
  rw [Piece.stop]
  omega

theorem Piece.In.append (h : p.In stream) (new : List α) : p.In (stream++new) where
  start_le := by
    rw [length_append]
    exact Nat.le_add_right_of_le h.start_le
  bytes := by
    rw [drop_append_of_le_length h.start_le]
    exact h.bytes.trans (prefix_append _ _)

theorem Piece.In.extend (h : p.In stream) (hstop : p.stop = stream.length) (new : List α) :
    (⟨p.start,p.bytes++new⟩ : Piece α).In (stream++new) where
  start_le := (h.append new).start_le
  bytes := by
    have hbytes : p.bytes = stream.drop p.start := by
      refine h.bytes.eq_of_length ?_
      rw [length_drop,← hstop,Piece.stop,Nat.add_sub_cancel_left]
    rw [drop_append_of_le_length h.start_le,hbytes]

theorem Piece.In.last (stream new : List α) : (⟨stream.length,new⟩ : Piece α).In (stream++new) where
  start_le := by simp
  bytes := by simp

theorem Piece.In.drop (h : p.In stream) (hlo : p.start ≤ u) (hhi : u ≤ p.stop) :
    (⟨u,p.bytes.drop (u-p.start)⟩ : Piece α).In stream where
  start_le := hhi.trans h.stop_le
  bytes := by
    have hdrop := h.bytes.drop (u-p.start)
    rwa [drop_drop,Nat.add_sub_cancel' hlo] at hdrop

theorem Piece.stop_drop (hlo : p.start ≤ u) (hhi : u ≤ p.stop) :
    (⟨u,p.bytes.drop (u-p.start)⟩ : Piece α).stop = p.stop := by
  simp only [Piece.stop,length_drop] at hhi ⊢
  omega

theorem Piece.In.getElem? (h : p.In stream) (hlo : p.start ≤ q) (hhi : q < p.stop) :
    p.bytes[q-p.start]? = stream[q]? := by
  obtain ⟨tail,htail⟩ := h.bytes
  have hlt : q-p.start < p.bytes.length := by
    rw [Piece.stop] at hhi
    omega
  rw [← getElem?_append_left hlt,htail,getElem?_drop,Nat.add_sub_cancel' hlo]

/-! ### Chains -/

theorem chain_append : Chain stream u b (ps++qs) e ↔
    ∃ m,Chain stream u b ps m ∧ Chain stream u m qs e := by
  induction ps generalizing b with
  | nil => simp [Chain]
  | cons p ps ih =>
    simp only [cons_append,Chain,ih]
    constructor
    · rintro ⟨hb,hgap,hin,m,hps,hqs⟩
      exact ⟨m,⟨hb,hgap,hin,hps⟩,hqs⟩
    · rintro ⟨m,⟨hb,hgap,hin,hps⟩,hqs⟩
      exact ⟨hb,hgap,hin,m,hps,hqs⟩

theorem Chain.grow (h : Chain stream u b ps e) (new : List α) : Chain (stream++new) u b ps e := by
  induction ps generalizing b with
  | nil => exact h
  | cons p ps ih =>
    obtain ⟨hb,hgap,hin,hps⟩ := h
    exact ⟨hb,hgap,hin.append new,ih hps⟩

theorem Chain.mono (h : Chain stream u b ps e) (hu : u ≤ u') : Chain stream u' b ps e := by
  induction ps generalizing b with
  | nil => exact h
  | cons p ps ih =>
    obtain ⟨hb,hgap,hin,hps⟩ := h
    exact ⟨hb,hgap.imp_right fun hle => hle.trans hu,hin,ih hps⟩

theorem Chain.extend (h : Chain stream u b (ps++[p]) stream.length) (new : List α) :
    Chain (stream++new) u b (ps++[⟨p.start,p.bytes++new⟩]) (stream++new).length := by
  obtain ⟨m,hps,hb,hgap,hin,hstop⟩ := chain_append.mp h
  have hstop : p.stop = stream.length := hstop
  refine chain_append.mpr ⟨m,hps.grow new,hb,hgap,hin.extend hstop new,?_⟩
  simp only [Chain,Piece.stop,length_append,← hstop]
  omega

theorem Chain.push (h : Chain stream u b ps stream.length) (new : List α) :
    Chain (stream++new) u b (ps++[⟨stream.length,new⟩]) (stream++new).length := by
  refine chain_append.mpr ⟨_,h.grow new,le_rfl,.inl rfl,.last stream new,?_⟩
  simp [Chain,Piece.stop]

theorem Chain.set (h : Chain stream u b ps e) (hp : ps[i]? = some p) (hlo : p.start ≤ u)
    (hhi : u ≤ p.stop) : Chain stream u b (ps.set i ⟨u,p.bytes.drop (u-p.start)⟩) e := by
  induction ps generalizing b i with
  | nil => simp at hp
  | cons p₀ ps ih =>
    obtain ⟨hb,hgap,hin,hps⟩ := h
    cases i with
    | zero =>
      obtain rfl : p₀ = p := by simpa using hp
      refine ⟨hb.trans hlo,.inr le_rfl,hin.drop hlo hhi,?_⟩
      rw [Piece.stop_drop hlo hhi]
      exact hps
    | succ i => exact ⟨hb,hgap,hin,ih hps (by simpa using hp)⟩

theorem Chain.le (h : Chain stream u b ps e) : b ≤ e := by
  induction ps generalizing b with
  | nil => exact h.le
  | cons p ps ih =>
    obtain ⟨hb,-,-,hps⟩ := h
    have := ih hps
    rw [Piece.stop] at this
    omega

theorem Chain.mem (h : Chain stream u b ps e) (hp : p ∈ ps) :
    b ≤ p.start ∧ p.stop ≤ e ∧ p.In stream := by
  induction ps generalizing b with
  | nil => simp at hp
  | cons p₀ ps ih =>
    obtain ⟨hb,-,hin,hps⟩ := h
    rcases mem_cons.mp hp with rfl | hp
    · exact ⟨hb,hps.le,hin⟩
    · obtain ⟨hle,he,hin'⟩ := ih hps hp
      rw [Piece.stop] at hle
      exact ⟨by omega,he,hin'⟩

theorem Chain.covers (h : Chain stream u b ps e) (hb : b ≤ q) (hu : u ≤ q) (he : q < e) :
    ∃ (i : ℕ) (p : Piece α),ps[i]? = some p ∧ p.start ≤ q ∧ q < p.stop := by
  induction ps generalizing b with
  | nil =>
    have hbe : b = e := h
    omega
  | cons p ps ih =>
    obtain ⟨-,hgap,-,hps⟩ := h
    have hstart : p.start ≤ q := by
      rcases hgap with hgap | hgap
      · exact hgap.le.trans hb
      · exact hgap.trans hu
    by_cases hq : q < p.stop
    · exact ⟨0,p,rfl,hstart,hq⟩
    · obtain ⟨i,p',hi,hp'⟩ := ih hps (by omega)
      exact ⟨i+1,p',by simpa using hi,hp'⟩

theorem Chain.stop_le_start (h : Chain stream u b ps e) (hi : ps[i]? = some p)
    (hj : ps[j]? = some p') (hij : i < j) : p.stop ≤ p'.start := by
  induction ps generalizing b i j with
  | nil => simp at hi
  | cons p₀ ps ih =>
    obtain ⟨-,-,-,hps⟩ := h
    obtain ⟨j,rfl⟩ : ∃ k,j = k+1 := ⟨j-1,by omega⟩
    have hj : ps[j]? = some p' := by simpa using hj
    cases i with
    | zero =>
      obtain rfl : p₀ = p := by simpa using hi
      exact (hps.mem (mem_of_getElem? hj)).1
    | succ i => exact ih hps (by simpa using hi) hj (by omega)

theorem Chain.unique (h : Chain stream u b ps e) (hi : ps[i]? = some p) (hj : ps[j]? = some p')
    (hlo : p.start ≤ q) (hhi : q < p.stop) (hlo' : p'.start ≤ q) (hhi' : q < p'.stop) : i = j := by
  rcases Nat.lt_trichotomy i j with hij | hij | hij
  · have := h.stop_le_start hi hj hij
    omega
  · exact hij
  · have := h.stop_le_start hj hi hij
    omega

/-! ### What holds the pieces -/

section Holders

variable {β γ : Type*} {R : β → γ → Prop} {as : List β} {bs : List γ} {x : β} {y : γ}

theorem exists_right (h : List.Forall₂ R as bs) (hx : as[i]? = some x) :
    ∃ y,bs[i]? = some y ∧ R x y := by
  induction h generalizing i with
  | nil => simp at hx
  | @cons x' y' as bs hxy _ ih =>
    cases i with
    | zero =>
      obtain rfl : x' = x := by simpa using hx
      exact ⟨y',rfl,hxy⟩
    | succ i => simpa using ih (by simpa using hx)

theorem exists_left (h : List.Forall₂ R as bs) (hy : bs[i]? = some y) :
    ∃ x,as[i]? = some x ∧ R x y :=
  exists_right (R:=flip R) h.flip hy

theorem forall₂_set (h : List.Forall₂ R as bs) (hxy : R x y) (i : ℕ) :
    List.Forall₂ R (as.set i x) (bs.set i y) := by
  induction h generalizing i with
  | nil => exact .nil
  | cons hab htail ih =>
    cases i with
    | zero => exact .cons hxy htail
    | succ i => exact .cons hab (ih i)

end Holders

end Vessel.Pieces
