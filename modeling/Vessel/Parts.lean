import Mathlib.Data.List.Nodup
import Mathlib.Data.List.Perm.Basic
import Mathlib.Logic.Function.Basic

/-! Elements that are kept at places, every one at one place only, and how they move from place to
place. -/
namespace Vessel

open Function

variable {P α : Type*}

/-- The lists of the places have no element twice and none in common. -/
structure Parts (items : P → List α) : Prop where
  nodup : ∀ p, (items p).Nodup
  apart : ∀ {p q x}, x ∈ items p → x ∈ items q → p = q

namespace Parts

/-- `x` is at some place. -/
def Within (items : P → List α) (x : α) : Prop := ∃ p, x ∈ items p

variable {items : P → List α} {p q : P} {l rest : List α}

theorem empty : Parts fun _ : P => ([] : List α) where
  nodup _ := List.nodup_nil
  apart h := absurd h List.not_mem_nil

variable [DecidableEq P]

theorem mem_update {x : α} : x ∈ update items p l q ↔
    (q = p ∧ x ∈ l) ∨ (q ≠ p ∧ x ∈ items q) := by
  rw [update_apply]
  split <;> simp_all

theorem lose (h : Parts items) (hp : (items p).Perm (l++rest)) :
    Parts (update items p rest) ∧
      ∀ x, Within (update items p rest) x ↔ Within items x ∧ x ∉ l := by
  have hnodup := hp.nodup_iff.mp (h.nodup p)
  have hsub : ∀ {q x}, x ∈ update items p rest q → x ∈ items q := by
    intro q x hx
    rcases mem_update.mp hx with ⟨rfl,hrest⟩ | ⟨-,hx⟩
    · exact hp.mem_iff.mpr (List.mem_append_right l hrest)
    · exact hx
  refine ⟨⟨fun q => ?_,fun hx hy => h.apart (hsub hx) (hsub hy)⟩,fun x => ⟨?_,?_⟩⟩
  · rw [update_apply]
    split
    · exact hnodup.of_append_right
    · exact h.nodup q
  · rintro ⟨q,hx⟩
    refine ⟨⟨q,hsub hx⟩,fun hl => ?_⟩
    have hxp : x ∈ items p := hp.mem_iff.mpr (List.mem_append_left rest hl)
    obtain rfl := h.apart (hsub hx) hxp
    rw [update_self] at hx
    exact List.disjoint_of_nodup_append hnodup hl hx
  · rintro ⟨⟨q,hx⟩,hl⟩
    refine ⟨q,mem_update.mpr ?_⟩
    by_cases hq : q = p
    · subst hq
      exact Or.inl ⟨rfl,(List.mem_append.mp (hp.mem_iff.mp hx)).resolve_left hl⟩
    · exact Or.inr ⟨hq,hx⟩

theorem gain (h : Parts items) (hl : l.Nodup) (hnew : ∀ x ∈ l, ¬Within items x) :
    Parts (update items p (l++items p)) ∧
      ∀ x, Within (update items p (l++items p)) x ↔ Within items x ∨ x ∈ l := by
  have hmem : ∀ {q x}, x ∈ update items p (l++items p) q ↔
      x ∈ items q ∨ (q = p ∧ x ∈ l) := by
    intro q x
    rw [mem_update,List.mem_append]
    by_cases hq : q = p
    · simp [hq,or_comm]
    · simp [hq]
  refine ⟨⟨fun q => ?_,fun {q q' x} hx hy => ?_⟩,fun x => ⟨?_,?_⟩⟩
  · rw [update_apply]
    split
    · exact hl.append (h.nodup p) fun x hx hxp => hnew x hx ⟨p,hxp⟩
    · exact h.nodup q
  · rcases hmem.mp hx with hq | ⟨rfl,hxl⟩ <;> rcases hmem.mp hy with hq' | ⟨rfl,hyl⟩
    · exact h.apart hq hq'
    · exact absurd ⟨q,hq⟩ (hnew x hyl)
    · exact absurd ⟨q',hq'⟩ (hnew x hxl)
    · rfl
  · rintro ⟨q,hx⟩
    rcases hmem.mp hx with hx | ⟨-,hx⟩
    · exact Or.inl ⟨q,hx⟩
    · exact Or.inr hx
  · rintro (⟨q,hx⟩ | hx)
    · exact ⟨q,hmem.mpr (Or.inl hx)⟩
    · exact ⟨p,hmem.mpr (Or.inr ⟨rfl,hx⟩)⟩

theorem move (h : Parts items) (hp : (items p).Perm (l++rest)) (hq : q ≠ p) :
    Parts (update (update items p rest) q (l++items q)) ∧
      ∀ x, Within (update (update items p rest) q (l++items q)) x ↔
        Within items x := by
  obtain ⟨hlose,hwithin⟩ := h.lose hp
  have hnodup := hp.nodup_iff.mp (h.nodup p)
  have hnew : ∀ x ∈ l, ¬Within (update items p rest) x := fun x hx hin =>
    ((hwithin x).mp hin).2 hx
  have hgain := hlose.gain (p:=q) hnodup.of_append_left hnew
  rw [update_of_ne hq] at hgain
  refine ⟨hgain.1,fun x => (hgain.2 x).trans ?_⟩
  rw [hwithin]
  have hin : x ∈ l → Within items x := fun hx => ⟨p,hp.mem_iff.mpr (List.mem_append_left rest hx)⟩
  tauto

end Parts
end Vessel
