import Mathlib.Data.Nat.Init
import Mathlib.Data.Option.Basic

/-! Runs of a machine whose steps are computed: an event either gives the next state or cannot
happen there. -/
namespace Vessel

open Option
namespace Machine

variable {S E : Type*} (step : S → E → Option S)

def run : S → List E → Option S
  | s,[] => some s
  | s,e::es => (step s e).bind fun t => run t es

/-- The condition `ok` is met whenever the run takes a step. -/
def Along (ok : S → E → Prop) : S → List E → Prop
  | _,[] => True
  | s,e::es => ok s e ∧ ∀ t ∈ step s e, Along ok t es

instance Along.decidable {ok : S → E → Prop} [∀ s e, Decidable (ok s e)] :
    (s : S) → (es : List E) → Decidable (Along step ok s es)
  | _,[] => inferInstanceAs (Decidable True)
  | _,_::es =>
    haveI : DecidablePred fun t => Along step ok t es := fun t => Along.decidable t es
    inferInstanceAs (Decidable (_ ∧ _))

variable {step} {s t : S}

/-- What every allowed step keeps, a run keeps. -/
theorem run_invariant {ok : S → E → Prop} {P : S → Prop}
    (hstep : ∀ {s t e}, P s → ok s e → step s e = some t → P t) {es : List E} (hs : P s)
    (hok : Along step ok s es) (ht : run step s es = some t) : P t := by
  induction es generalizing s with
  | nil => exact some.inj ht ▸ hs
  | cons e es ih =>
    obtain ⟨u,hu,hrun⟩ := bind_eq_some_iff.mp ht
    exact ih (hstep hs hok.1 hu) (hok.2 u hu) hrun

theorem along_true {es : List E} : Along step (fun _ _ => True) s es := by
  induction es generalizing s with
  | nil => trivial
  | cons e es ih => exact ⟨trivial,fun _ _ => ih⟩

theorem run_append (es fs : List E) :
    run step s (es++fs) = (run step s es).bind fun t => run step t fs := by
  induction es generalizing s with
  | nil => rfl
  | cons e es ih =>
    rw [List.cons_append,run,run,bind_assoc]
    exact bind_congr fun t _ => ih

theorem Along.of_append {ok : S → E → Prop} {es fs : List E} (h : Along step ok s (es++fs)) :
    Along step ok s es := by
  induction es generalizing s with
  | nil => trivial
  | cons e es ih => exact ⟨h.1,fun t ht => ih (h.2 t ht)⟩

theorem run_keeps {P : S → Prop} (hstep : ∀ {s t e}, P s → step s e = some t → P t)
    {es : List E} (hs : P s) (ht : run step s es = some t) : P t :=
  run_invariant (fun h _ => hstep h) hs along_true ht

/-- Where a step from a state of `I` leads to a state of `P` only if it is allowed, and stays in `I`
then, a run has all its states in `P` just if all its steps are allowed. -/
theorem all_iff_along {ok : S → E → Prop} {P I : S → Prop} (hP : ∀ {s}, I s → P s)
    (hkeep : ∀ {s t e}, I s → step s e = some t → ok s e → I t)
    (honly : ∀ {s t e}, I s → step s e = some t → P t → ok s e) {es : List E} (hs : I s)
    (ht : run step s es = some t) :
    (∀ fs u, fs <+: es → run step s fs = some u → P u) ↔ Along step ok s es := by
  induction es generalizing s with
  | nil =>
    refine iff_of_true (fun fs u hfs hu => ?_) trivial
    rw [List.prefix_nil.mp hfs] at hu
    exact some.inj hu ▸ hP hs
  | cons e es ih =>
    obtain ⟨u,hu,hrun⟩ := bind_eq_some_iff.mp ht
    have hcons : ∀ fs, run step s (e::fs) = run step u fs := fun fs => by
      rw [run,hu,bind_some]
    constructor
    · intro hall
      have hok := honly hs hu (hall [e] u ⟨es,rfl⟩ (hcons []))
      refine ⟨hok,fun v hv => ?_⟩
      rw [hu,mem_some_iff] at hv
      subst hv
      refine (ih (hkeep hs hu hok) hrun).mp fun fs v hfs hv => ?_
      exact hall (e::fs) v (List.cons_prefix_cons.mpr ⟨rfl,hfs⟩) ((hcons fs).trans hv)
    · rintro ⟨hok,hrest⟩ fs v hfs hv
      rcases List.prefix_cons_iff.mp hfs with rfl | ⟨gs,rfl,hgs⟩
      · exact some.inj hv ▸ hP hs
      · rw [hcons] at hv
        exact (ih (hkeep hs hu hok) hrun).mpr (hrest u hu) gs v hgs hv

/-- If every state of `P` outside of `Q` has a step within `P` that makes `μ` smaller, then a run
leads into `Q`. -/
theorem exists_run_of_measure {P Q : S → Prop} (μ : S → ℕ)
    (hstep : ∀ s, P s → ¬Q s → ∃ e t, step s e = some t ∧ P t ∧ μ t < μ s) (s : S) (hs : P s) :
    ∃ es t, run step s es = some t ∧ P t ∧ Q t := by
  generalize hn : μ s = n
  induction n using Nat.strong_induction_on generalizing s with
  | _ n ih =>
    by_cases hq : Q s
    · exact ⟨[],s,rfl,hs,hq⟩
    · obtain ⟨e,u,hu,hpu,hlt⟩ := hstep s hs hq
      obtain ⟨es,t,ht,hend⟩ := ih (μ u) (hn ▸ hlt) u hpu rfl
      exact ⟨e::es,t,by rw [run,hu]; exact ht,hend⟩

end Machine
end Vessel
