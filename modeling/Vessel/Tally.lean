import Mathlib.Algebra.BigOperators.Group.Finset.Basic
import Mathlib.Algebra.Order.BigOperators.Group.Finset
import Mathlib.Data.Fintype.BigOperators
import Mathlib.Tactic.Ring

/-! Sums over parties, of which one changes its value. -/
namespace Vessel.Tally

open Finset

variable {α β : Type} [Fintype α] [DecidableEq α]

theorem sum_update (g : α → β → ℕ) (f : α → β) (a : α) (v : β) :
    ∑ k, g k (Function.update f a v k) + g a (f a) = ∑ k, g k (f k) + g a v := by
  rw [← add_sum_erase univ (fun k => g k (Function.update f a v k)) (mem_univ a),
    ← add_sum_erase univ (fun k => g k (f k)) (mem_univ a),Function.update_self]
  have hrest : ∑ k ∈ univ.erase a, g k (Function.update f a v k) = ∑ k ∈ univ.erase a, g k (f k) :=
    sum_congr rfl fun k hk => by rw [Function.update_of_ne (ne_of_mem_erase hk)]
  rw [hrest]
  ring

/-- The parties whose value satisfies `p`. -/
def tally (p : β → Bool) (f : α → β) : ℕ := ∑ k, (p (f k)).toNat

variable {p : β → Bool} {f : α → β} {a : α} {v : β}

theorem tally_update : tally p (Function.update f a v)+(p (f a)).toNat = tally p f+(p v).toNat :=
  sum_update (fun _ b => (p b).toNat) f a v

omit [DecidableEq α] in
theorem tally_le_card : tally p f ≤ Fintype.card α := by
  refine (sum_le_card_nsmul univ _ 1 fun k _ => Bool.toNat_le _).trans ?_
  simp

omit [DecidableEq α] in
theorem tally_add {q r : β → Bool} (h : ∀ b,(p b).toNat = (q b).toNat+(r b).toNat) :
    tally p f = tally q f+tally r f := by
  simp only [tally,h,sum_add_distrib]

end Vessel.Tally
