import Mathlib.Logic.Function.Basic
import Mathlib.Tactic.Common

/-! Programs that reach shared memory one operation at a time.
A call of a thread is a finite tree: it reads and writes the private state of its
thread and performs operations whose answers come from outside.  Loops that wait for
another thread are not part of a call; the thread starts the next round itself. -/
namespace Vessel

/-- A call with private state `S`, shared operations `Op` and answers `Res op`. -/
inductive Prog (S Op : Type) (Res : Op → Type) (α : Type) : Type
  | ret (a : α)
  | get (k : S → Prog S Op Res α)
  | put (s : S) (k : Prog S Op Res α)
  | act (op : Op) (k : Res op → Prog S Op Res α)

/-- What a thread may do in a logical state, and where an answer takes it. -/
structure Rules (G Op : Type) (Res : Op → Type) where
  may : G → Op → Prop
  next : G → (op : Op) → Res op → G → Prop

/-- Every operation is allowed and every answer is possible. -/
def anyAnswer (Op : Type) (Res : Op → Type) : Rules Unit Op Res where
  may _ _ := True
  next _ _ _ _ := True

@[simp] theorem anyAnswer_may {Op : Type} {Res : Op → Type} (g : Unit) (op : Op) :
    (anyAnswer Op Res).may g op := trivial
@[simp] theorem anyAnswer_next {Op : Type} {Res : Op → Type} (g g' : Unit) (op : Op) (r : Res op) :
    (anyAnswer Op Res).next g op r g' := trivial

namespace Prog

variable {S T Op G : Type} {Res : Op → Type} {α β : Type}

def bind : Prog S Op Res α → (α → Prog S Op Res β) → Prog S Op Res β
  | ret a, f => f a
  | get k, f => get fun s => (k s).bind f
  | put s k, f => put s (k.bind f)
  | act op k, f => act op fun r => (k r).bind f

instance : Monad (Prog S Op Res) where
  pure := ret
  bind := bind

/-- The private state of the running thread. -/
def read : Prog S Op Res S := get ret

def update (f : S → S) : Prog S Op Res Unit := get fun s => put (f s) (ret ())

def perform (op : Op) : Prog S Op Res (Res op) := act op ret

/-- An operation whose answer does not matter. -/
def tell (op : Op) : Prog S Op Res Unit := act op fun _ => ret ()

/-- A loop over a list with an accumulator. -/
def fold (f : β → α → Prog S Op Res β) (b : β) : List α → Prog S Op Res β
  | [] => pure b
  | a::as => do fold f (← f b a) as

/-- Run a call on one component of a larger private state. -/
def zoom (view : T → S) (set : S → T → T) : Prog S Op Res α → Prog T Op Res α
  | ret a => ret a
  | get k => get fun t => (k (view t)).zoom view set
  | put s k => get fun t => put (set s t) (k.zoom view set)
  | act op k => act op fun r => (k r).zoom view set

/-- The call follows the rules from `s`, `g` on, and ends in `post`. -/
def Obeys (R : Rules G Op Res) (post : α → S → G → Prop) : Prog S Op Res α → S → G → Prop
  | ret a, s, g => post a s g
  | get k, s, g => (k s).Obeys R post s g
  | put s k, _, g => k.Obeys R post s g
  | act op k, s, g => R.may g op ∧ ∀ r g', R.next g op r g' → (k r).Obeys R post s g'

/-- `post` holds at the end of the call whatever the shared memory answers. -/
def Always (post : α → S → Prop) (p : Prog S Op Res α) (s : S) : Prop :=
  p.Obeys (anyAnswer Op Res) (fun a s _ => post a s) s ()

/-- The call may return `a` and leave the private state `t`. -/
def Returns : Prog S Op Res α → S → α → S → Prop
  | ret a, s, b, t => a = b ∧ s = t
  | get k, s, b, t => (k s).Returns s b t
  | put s k, _, b, t => k.Returns s b t
  | act _ k, s, b, t => ∃ r, (k r).Returns s b t

/-- The call under a fixed table of answers. -/
def answer (ans : (op : Op) → Res op) : Prog S Op Res α → S → α × S
  | ret a, s => (a,s)
  | get k, s => (k s).answer ans s
  | put s k, _ => k.answer ans s
  | act op k, s => (k (ans op)).answer ans s

theorem answer_returns (ans : (op : Op) → Res op) (p : Prog S Op Res α) (s : S) :
    p.Returns s (p.answer ans s).1 (p.answer ans s).2 := by
  induction p generalizing s with
  | ret a => exact ⟨rfl,rfl⟩
  | get k ih => exact ih s s
  | put t k ih => exact ih t
  | act op k ih => exact ⟨ans op,ih (ans op) s⟩

variable {R : Rules G Op Res} {post : α → S → G → Prop} {s : S} {g : G}

@[simp] theorem obeys_pure (a : α) : (pure a : Prog S Op Res α).Obeys R post s g ↔ post a s g :=
  Iff.rfl

@[simp] theorem obeys_read {post : S → S → G → Prop} :
    (read : Prog S Op Res S).Obeys R post s g ↔ post s s g := Iff.rfl

@[simp] theorem obeys_update {post : Unit → S → G → Prop} (f : S → S) :
    (update f : Prog S Op Res Unit).Obeys R post s g ↔ post () (f s) g := Iff.rfl

@[simp] theorem obeys_perform (op : Op) {post : Res op → S → G → Prop} :
    (perform op : Prog S Op Res (Res op)).Obeys R post s g ↔
      R.may g op ∧ ∀ r g', R.next g op r g' → post r s g' := Iff.rfl

@[simp] theorem obeys_tell (op : Op) {post : Unit → S → G → Prop} :
    (tell op : Prog S Op Res Unit).Obeys R post s g ↔
      R.may g op ∧ ∀ r g', R.next g op r g' → post () s g' := Iff.rfl

@[simp] theorem obeys_bind (p : Prog S Op Res α) (f : α → Prog S Op Res β)
    {post : β → S → G → Prop} :
    (p >>= f).Obeys R post s g ↔ p.Obeys R (fun a s g => (f a).Obeys R post s g) s g := by
  change (p.bind f).Obeys R post s g ↔ _
  induction p generalizing s g with
  | ret a => rfl
  | get k ih => exact ih s
  | put t k ih => exact ih
  | act op k ih =>
    refine and_congr Iff.rfl (forall_congr' fun r => forall_congr' fun g' => ?_)
    exact imp_congr Iff.rfl (ih r)

@[simp] theorem obeys_ite (c : Prop) [Decidable c] (p q : Prog S Op Res α) :
    (if c then p else q).Obeys R post s g ↔
      (c → p.Obeys R post s g) ∧ (¬c → q.Obeys R post s g) := by
  by_cases h : c <;> simp [h]

@[simp] theorem obeys_map (p : Prog S Op Res α) (f : α → β) {post : β → S → G → Prop} :
    (f <$> p).Obeys R post s g ↔ p.Obeys R (fun a s g => post (f a) s g) s g :=
  obeys_bind p fun a => pure (f a)

theorem Obeys.mono {post post' : α → S → G → Prop} {p : Prog S Op Res α}
    (h : p.Obeys R post s g) (hp : ∀ a s g, post a s g → post' a s g) :
    p.Obeys R post' s g := by
  induction p generalizing s g with
  | ret a => exact hp a s g h
  | get k ih => exact ih s h
  | put t k ih => exact ih h
  | act op k ih => exact ⟨h.1,fun r g' hn => ih r (h.2 r g' hn)⟩

theorem Obeys.and_always {p : Prog S Op Res α} {q : α → S → Prop}
    (h : p.Obeys R post s g) (ha : p.Always q s) :
    p.Obeys R (fun a s g => q a s ∧ post a s g) s g := by
  induction p generalizing s g with
  | ret a => exact ⟨ha,h⟩
  | get k ih => exact ih s h ha
  | put t k ih => exact ih h ha
  | act op k ih => exact ⟨h.1,fun r g' hn => ih r (h.2 r g' hn) (ha.2 r () trivial)⟩

/-- Loop rule: an invariant of one round, indexed by the elements still to come. -/
theorem obeys_fold {f : β → α → Prog S Op Res β} (I : List α → β → S → G → Prop)
    (hround : ∀ b a as s g, I (a::as) b s g → (f b a).Obeys R (fun b s g => I as b s g) s g)
    (b : β) (as : List α) (h : I as b s g) :
    (fold f b as).Obeys R (fun b s g => I [] b s g) s g := by
  induction as generalizing b s g with
  | nil => exact h
  | cons a as ih =>
    rw [fold,obeys_bind]
    exact (hround b a as s g h).mono fun b s g hs => ih b hs

theorem obeys_zoom {view : T → S} {set : S → T → T} (hv : ∀ s t, view (set s t) = s)
    (hs : ∀ s s' t, set s (set s' t) = set s t) (hi : ∀ t, set (view t) t = t)
    (p : Prog S Op Res α) {post : α → T → G → Prop} (t : T) :
    (p.zoom view set).Obeys R post t g ↔
      p.Obeys R (fun a s g => post a (set s t) g) (view t) g := by
  induction p generalizing t g with
  | ret a => simp only [zoom,Obeys,hi]
  | get k ih => exact ih (view t) t
  | put s k ih =>
    have h := ih (g:=g) (set s t)
    simp only [hv,hs] at h
    exact h
  | act op k ih =>
    refine and_congr Iff.rfl (forall_congr' fun r => forall_congr' fun g' => ?_)
    exact imp_congr Iff.rfl (ih r t)

section Always

variable {post : α → S → Prop} {s : S}

@[simp] theorem always_pure (a : α) : (pure a : Prog S Op Res α).Always post s ↔ post a s := Iff.rfl
@[simp] theorem always_read {post : S → S → Prop} :
    (read : Prog S Op Res S).Always post s ↔ post s s := Iff.rfl
@[simp] theorem always_update {post : Unit → S → Prop} (f : S → S) :
    (update f : Prog S Op Res Unit).Always post s ↔ post () (f s) := Iff.rfl
@[simp] theorem always_perform (op : Op) {post : Res op → S → Prop} :
    (perform op : Prog S Op Res (Res op)).Always post s ↔ ∀ r, post r s := by simp [Always]
@[simp] theorem always_tell (op : Op) [Nonempty (Res op)] {post : Unit → S → Prop} :
    (tell op : Prog S Op Res Unit).Always post s ↔ post () s := by simp [Always]
@[simp] theorem always_bind (p : Prog S Op Res α) (f : α → Prog S Op Res β) {post : β → S → Prop} :
    (p >>= f).Always post s ↔ p.Always (fun a s => (f a).Always post s) s := obeys_bind p f
@[simp] theorem always_ite (c : Prop) [Decidable c] (p q : Prog S Op Res α) :
    (if c then p else q).Always post s ↔ (c → p.Always post s) ∧ (¬c → q.Always post s) :=
  obeys_ite c p q

theorem Always.mono {post' : α → S → Prop} {p : Prog S Op Res α} (h : p.Always post s)
    (hp : ∀ a s, post a s → post' a s) : p.Always post' s :=
  Obeys.mono h fun a s _ => hp a s

theorem Always.and {post' : α → S → Prop} {p : Prog S Op Res α} (h : p.Always post s)
    (h' : p.Always post' s) : p.Always (fun a s => post a s ∧ post' a s) s :=
  Obeys.and_always h' h

theorem always_fold {f : β → α → Prog S Op Res β} (I : List α → β → S → Prop)
    (hround : ∀ b a as s, I (a::as) b s → (f b a).Always (fun b s => I as b s) s)
    (b : β) (as : List α) (h : I as b s) : (fold f b as).Always (fun b s => I [] b s) s :=
  obeys_fold (fun as b s _ => I as b s) (fun b a as s _ => hround b a as s) b as h

theorem always_zoom {view : T → S} {set : S → T → T} (hv : ∀ s t, view (set s t) = s)
    (hs : ∀ s s' t, set s (set s' t) = set s t) (hi : ∀ t, set (view t) t = t)
    (p : Prog S Op Res α) {post : α → T → Prop} (t : T) :
    (p.zoom view set).Always post t ↔ p.Always (fun a s => post a (set s t)) (view t) :=
  obeys_zoom hv hs hi p t

theorem Always.returns {post : α → S → Prop} {p : Prog S Op Res α} {a : α} {t : S}
    (h : p.Always post s) (hr : p.Returns s a t) : post a t := by
  induction p generalizing s with
  | ret b =>
    obtain ⟨rfl,rfl⟩ := hr
    exact h
  | get k ih => exact ih s h hr
  | put u k ih => exact ih h hr
  | act op k ih =>
    obtain ⟨r,hr⟩ := hr
    exact ih r (h.2 r () trivial) hr

end Always

end Prog
end Vessel
