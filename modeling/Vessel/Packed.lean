import Mathlib

/-! Strings that are copied one behind the other into a block, each with its terminator. -/
namespace Vessel
namespace Packed

/-- The block, the place for the next string, the places of those that are in it, and the ranges
that were written. -/
structure Block (α : Type*) where
  mem : ℕ → α
  cpos : ℕ
  ptrs : List ℕ
  written : List (ℕ × ℕ)

variable {α : Type*} (stop : α)

def Block.put (b : Block α) (s : List α) : Block α where
  mem i := if b.cpos ≤ i ∧ i ≤ b.cpos+s.length then s.getD (i-b.cpos) stop else b.mem i
  cpos := b.cpos+s.length+1
  ptrs := b.ptrs++[b.cpos]
  written := b.written++[(b.cpos,s.length+1)]

def pack (mem : ℕ → α) (ss : List (List α)) : Block α := ss.foldl (Block.put stop) ⟨mem,0,[],[]⟩

/-- The bytes that the strings need. -/
def size (ss : List (List α)) : ℕ := (ss.map fun s => s.length+1).sum

/-- There is the string `s` at `p`. -/
def Block.Holds (b : Block α) (p : ℕ) (s : List α) : Prop :=
  (∀ i (h : i < s.length), b.mem (p+i) = s[i]) ∧ b.mem (p+s.length) = stop

def Block.Inside (b : Block α) (n : ℕ) : Prop := ∀ r ∈ b.written, r.1+r.2 ≤ n

variable {stop} {mem : ℕ → α} {ss : List (List α)}

theorem pack_concat (s : List α) : pack stop mem (ss++[s]) = (pack stop mem ss).put stop s := by
  rw [pack,List.foldl_concat,pack]

theorem cpos_pack : (pack stop mem ss).cpos = size ss := by
  induction ss using List.reverseRecOn with
  | nil => rfl
  | append_singleton ss s ih =>
    rw [pack_concat,Block.put,ih]
    simp [size,Nat.add_assoc]

theorem holds_pack (stop : α) (mem : ℕ → α) (ss : List (List α)) :
    List.Forall₂ (fun p s => (pack stop mem ss).Holds stop p s ∧
      p+s.length+1 ≤ (pack stop mem ss).cpos) (pack stop mem ss).ptrs ss := by
  induction ss using List.reverseRecOn with
  | nil => exact .nil
  | append_singleton ss s ih =>
    rw [pack_concat]
    have hlast : ((pack stop mem ss).put stop s).Holds stop (pack stop mem ss).cpos s := by
      refine ⟨fun i hi => ?_,?_⟩
      · simp [Block.put,hi,Nat.le_of_lt hi]
      · simp [Block.put]
    have hold : ∀ p t, (pack stop mem ss).Holds stop p t ∧ p+t.length+1 ≤ (pack stop mem ss).cpos →
        ((pack stop mem ss).put stop s).Holds stop p t ∧
          p+t.length+1 ≤ ((pack stop mem ss).put stop s).cpos := by
      rintro p t ⟨⟨hmem,hstop⟩,hle⟩
      refine ⟨⟨fun i hi => ?_,?_⟩,Nat.le_trans hle (by simp only [Block.put]; omega)⟩
      · exact (if_neg (by omega)).trans (hmem i hi)
      · exact (if_neg (by omega)).trans hstop
    exact List.rel_append (ih.imp hold) (.cons ⟨hlast,Nat.le_refl _⟩ .nil)

theorem inside_pack {n : ℕ} : (pack stop mem ss).Inside n ↔ size ss ≤ n := by
  have hcpos : (pack stop mem ss).cpos = size ss := cpos_pack
  rw [← hcpos]
  clear hcpos
  induction ss using List.reverseRecOn with
  | nil => simp [pack,Block.Inside]
  | append_singleton ss s ih =>
    rw [pack_concat]
    simp only [Block.Inside,Block.put,List.mem_append,List.mem_singleton] at ih ⊢
    constructor
    · intro h
      exact h _ (Or.inr rfl)
    · rintro h r (hr | rfl)
      · exact ih.mpr (by omega) r hr
      · exact h

end Packed
end Vessel
