import Mathlib.Data.List.Nodup
import Mathlib.Logic.Function.Basic

/-! Lists that are threaded through their own elements: every element points to the next one, and the
last one to none. -/
namespace Vessel
namespace Linked

variable {α : Type*}

/-- Following `next` from `p` gives the elements of the list. -/
def Chain (next : α → Option α) : Option α → List α → Prop
  | p,[] => p = none
  | p,x::xs => p = some x ∧ Chain next (next x) xs

/-- The elements from `p` on, if there are at most as many as given. -/
def walk (next : α → Option α) : ℕ → Option α → Option (List α)
  | _,none => some []
  | 0,some _ => none
  | n+1,some x => (walk next n (next x)).map (x::·)

/-- Thread the elements of a list. -/
def link [DecidableEq α] : List α → (α → Option α) → α → Option α
  | [],next => next
  | x::xs,next => link xs (Function.update next x xs.head?)

variable {next next' : α → Option α} {p : Option α} {x : α} {l l' : List α}

theorem Chain.congr (h : Chain next p l) (heq : ∀ x ∈ l, next' x = next x) : Chain next' p l := by
  induction l generalizing p with
  | nil => exact h
  | cons x xs ih =>
    obtain ⟨heqx,heq⟩ := List.forall_mem_cons.mp heq
    exact ⟨h.1,heqx ▸ ih h.2 heq⟩

theorem Chain.eq_nil (h : Chain next none l) : l = [] := by
  cases l with
  | nil => rfl
  | cons x xs => exact absurd h.1 (by simp)

theorem Chain.eq_cons (h : Chain next (some x) l) : ∃ xs, l = x::xs ∧ Chain next (next x) xs := by
  cases l with
  | nil => exact absurd h (by simp [Chain])
  | cons y xs =>
    obtain rfl := Option.some.inj h.1
    exact ⟨xs,rfl,h.2⟩

theorem Chain.unique (h : Chain next p l) (h' : Chain next p l') : l = l' := by
  induction l generalizing p l' with
  | nil =>
    obtain rfl := h
    exact h'.eq_nil.symm
  | cons x xs ih =>
    obtain ⟨rfl,h⟩ := h
    obtain ⟨ys,rfl,hys⟩ := h'.eq_cons
    rw [ih h hys]

theorem walk_eq_some {n : ℕ} (h : walk next n p = some l) : Chain next p l := by
  induction n generalizing p l with
  | zero =>
    cases p with
    | none => exact Option.some.inj h ▸ rfl
    | some x => contradiction
  | succ n ih =>
    cases p with
    | none => exact Option.some.inj h ▸ rfl
    | some x =>
      obtain ⟨xs,hxs,rfl⟩ := Option.map_eq_some_iff.mp h
      exact ⟨rfl,ih hxs⟩

variable [DecidableEq α]

theorem Chain.update (h : Chain next p l) (hx : x ∉ l) (q : Option α) :
    Chain (Function.update next x q) p l :=
  h.congr fun _ hy => Function.update_of_ne (ne_of_mem_of_not_mem hy hx) ..

theorem Chain.push (h : Chain next p l) (hx : x ∉ l) :
    Chain (Function.update next x p) (some x) (x::l) :=
  ⟨rfl,by rw [Function.update_self]; exact h.update hx p⟩

theorem link_of_not_mem (hx : x ∉ l) : link l next x = next x := by
  induction l generalizing next with
  | nil => rfl
  | cons y ys ih =>
    rw [List.mem_cons,not_or] at hx
    rw [link,ih hx.2,Function.update_of_ne hx.1]

theorem chain_link (hl : l.Nodup) : Chain (link l next) l.head? l := by
  induction l generalizing next with
  | nil => rfl
  | cons x xs ih =>
    obtain ⟨hx,hxs⟩ := List.nodup_cons.mp hl
    refine ⟨rfl,?_⟩
    rw [link,link_of_not_mem hx,Function.update_self]
    exact ih hxs

end Linked
end Vessel
