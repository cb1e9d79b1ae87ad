import Mathlib.Data.List.Nodup
import Mathlib.Data.List.Range
import Mathlib.Logic.Function.Basic
import Mathlib.Tactic.Common

/-! Hash tables with chained buckets.  An entry stands in the bucket that its key is sent to, and
keys are compared within a bucket only. -/
namespace Vessel.Buckets

open Function List

section Table

variable {α κ : Type} [DecidableEq κ] (key : α → κ) (idx : κ → ℕ)

def insert (t : ℕ → List α) (a : α) : ℕ → List α :=
  update t (idx (key a)) (a::t (idx (key a)))

def lookup (t : ℕ → List α) (k : κ) : Option α := (t (idx k)).find? fun a => key a = k

/-- The table holds the entries of the list, no two of them with the same key. -/
structure Holds (t : ℕ → List α) (as : List α) : Prop where
  mem : ∀ i a, a ∈ t i ↔ a ∈ as ∧ idx (key a) = i
  keys : (as.map key).Nodup

variable {key idx} {t : ℕ → List α} {as : List α} {a : α} {k : κ}

omit [DecidableEq κ] in
theorem holds_empty : Holds key idx (fun _ => []) [] where
  mem i a := by simp
  keys := nodup_nil

omit [DecidableEq κ] in
theorem Holds.insert (h : Holds key idx t as) (hk : ∀ b ∈ as, key b ≠ key a) :
    Holds key idx (insert key idx t a) (a::as) where
  mem i b := by
    unfold Buckets.insert
    by_cases hi : i = idx (key a)
    · subst hi
      rw [update_self,mem_cons,mem_cons,h.mem]
      constructor
      · rintro (rfl | ⟨hb,hidx⟩)
        · exact ⟨Or.inl rfl,rfl⟩
        · exact ⟨Or.inr hb,hidx⟩
      · rintro ⟨rfl | hb,hidx⟩
        · exact Or.inl rfl
        · exact Or.inr ⟨hb,hidx⟩
    · rw [update_of_ne hi,h.mem,mem_cons]
      constructor
      · rintro ⟨hb,hidx⟩
        exact ⟨Or.inr hb,hidx⟩
      · rintro ⟨rfl | hb,hidx⟩
        · exact absurd hidx.symm hi
        · exact ⟨hb,hidx⟩
  keys := by
    refine nodup_cons.mpr ⟨fun hmem => ?_,h.keys⟩
    obtain ⟨b,hb,heq⟩ := mem_map.mp hmem
    exact hk b hb heq

omit [DecidableEq κ] in
theorem Holds.filter (h : Holds key idx t as) (p : α → Bool) :
    Holds key idx (fun i => (t i).filter p) (as.filter p) where
  mem i b := by
    rw [mem_filter,mem_filter,h.mem]
    tauto
  keys := h.keys.sublist (filter_sublist.map key)

theorem Holds.lookup_eq_some (h : Holds key idx t as) :
    lookup key idx t k = some a ↔ a ∈ as ∧ key a = k := by
  constructor
  · intro hfind
    have hkey := find?_some hfind
    rw [decide_eq_true_eq] at hkey
    exact ⟨((h.mem _ a).mp (mem_of_find?_eq_some hfind)).1,hkey⟩
  · rintro ⟨ha,rfl⟩
    cases hfind : lookup key idx t (key a) with
    | none =>
      have := find?_eq_none.mp hfind a ((h.mem _ a).mpr ⟨ha,rfl⟩)
      simp at this
    | some b =>
      have hkey := find?_some hfind
      rw [decide_eq_true_eq] at hkey
      have hb := ((h.mem _ b).mp (mem_of_find?_eq_some hfind)).1
      rw [inj_on_of_nodup_map h.keys hb ha hkey]

theorem Holds.lookup_eq_none (h : Holds key idx t as) :
    lookup key idx t k = none ↔ ∀ b ∈ as, key b ≠ k := by
  rw [Option.eq_none_iff_forall_not_mem]
  constructor
  · intro hnone b hb heq
    exact hnone b (h.lookup_eq_some.mpr ⟨hb,heq⟩)
  · intro hno b hb
    obtain ⟨hmem,heq⟩ := h.lookup_eq_some.mp hb
    exact hno b hmem heq

end Table

/-! ### All entries of a table -/

section Entries

variable {α : Type} {n i : ℕ} {t : ℕ → List α}

/-- The entries of the first `n` buckets, one bucket after the other. -/
def entries (n : ℕ) (t : ℕ → List α) : List α := (List.range n).flatMap t

theorem mem_entries {a : α} : a ∈ entries n t ↔ ∃ i < n, a ∈ t i := by
  simp [entries]

theorem entries_update (hi : i < n) (t : ℕ → List α) :
    ∃ l r, entries n t = l++(t i++r) ∧
      ∀ b, entries n (update t i b) = l++(b++r) := by
  have hsplit : List.range n = List.range i++i::List.range' (i+1) (n-i-1) := by
    obtain ⟨k,rfl⟩ : ∃ k, n = i+(k+1) := ⟨n-i-1,by omega⟩
    rw [range_add,range_succ_eq_map,map_cons,map_map,List.range'_eq_map_range]
    simp only [Nat.add_zero,Nat.add_sub_cancel_left,Nat.add_sub_cancel]
    congr 2
    apply map_congr_left
    intro j _
    simp
    omega
  have hupdate (b : List α) : entries n (update t i b) =
      (List.range i).flatMap t++(b++(List.range' (i+1) (n-i-1)).flatMap t) := by
    rw [entries,hsplit,flatMap_append,flatMap_cons,update_self]
    congr 1
    · refine flatMap_congr fun j hj => update_of_ne ?_ _ _
      have := mem_range.mp hj
      omega
    · congr 1
      refine flatMap_congr fun j hj => update_of_ne ?_ _ _
      have := mem_range'_1.mp hj
      omega
  refine ⟨_,_,?_,hupdate⟩
  rw [← hupdate (t i),update_eq_self]

end Entries

end Vessel.Buckets
