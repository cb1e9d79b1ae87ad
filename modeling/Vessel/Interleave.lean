import Vessel.Prog
import Mathlib.Logic.Relation

/-! Threads that take turns on one shared memory.
A configuration holds the memory, the private state and the unfinished call of every
thread, and the history of what happened, newest event first.  A proof outline gives
each thread a logical state with rules; `Outline.covers` shows that every reachable
configuration is covered by the outline. -/
namespace Vessel

open Relation Function Option

/-- Threads `ι` with private states `S i`, calls `Call i` and results `Ret i`. -/
structure Threads (ι Op Mem : Type) (Res : Op → Type) (S Call Ret : ι → Type) where
  sem : (op : Op) → Mem → Res op → Mem → Prop
  body : (i : ι) → Call i → Prog (S i) Op Res (Ret i)
  allowed : (i : ι) → S i → Call i → Prop

inductive Event (ι Op : Type) (Res : Op → Type) (Call Ret : ι → Type)
  | start (i : ι) (c : Call i)
  | act (i : ι) (op : Op) (r : Res op)
  | done (i : ι) (c : Call i) (v : Ret i)

/-- A thread between calls has `run = none`. -/
structure Thread (S Op : Type) (Res : Op → Type) (Call Ret : Type) where
  priv : S
  run : Option (Call × Prog S Op Res Ret)

structure Config (ι Op Mem : Type) (Res : Op → Type) (S Call Ret : ι → Type) where
  mem : Mem
  thr : (i : ι) → Thread (S i) Op Res (Call i) (Ret i)
  trace : List (Event ι Op Res Call Ret)

variable {ι Op Mem : Type} {Res : Op → Type} {S Call Ret : ι → Type} [DecidableEq ι]

/-- The configuration with thread `i` replaced. -/
def Config.setThr (c : Config ι Op Mem Res S Call Ret) (i : ι)
    (th : Thread (S i) Op Res (Call i) (Ret i)) : Config ι Op Mem Res S Call Ret :=
  { c with thr := update c.thr i th }

def Config.log (c : Config ι Op Mem Res S Call Ret) (e : Event ι Op Res Call Ret) :
    Config ι Op Mem Res S Call Ret :=
  { c with trace := e::c.trace }

inductive Threads.Step (T : Threads ι Op Mem Res S Call Ret) :
    Config ι Op Mem Res S Call Ret → Config ι Op Mem Res S Call Ret → Prop
  | start {c i} (call : Call i) : (c.thr i).run = none → T.allowed i (c.thr i).priv call →
      Step T c ((c.setThr i ⟨(c.thr i).priv,some (call,T.body i call)⟩).log (.start i call))
  | get {c i call k} : (c.thr i).run = some (call,.get k) →
      Step T c (c.setThr i ⟨(c.thr i).priv,some (call,k (c.thr i).priv)⟩)
  | put {c i call s k} : (c.thr i).run = some (call,.put s k) →
      Step T c (c.setThr i ⟨s,some (call,k)⟩)
  | act {c i call op k r m} : (c.thr i).run = some (call,.act op k) → T.sem op c.mem r m →
      Step T c ({ c.setThr i ⟨(c.thr i).priv,some (call,k r)⟩ with mem := m }.log (.act i op r))
  | done {c i call v} : (c.thr i).run = some (call,.ret v) →
      Step T c ((c.setThr i ⟨(c.thr i).priv,none⟩).log (.done i call v))

/-- Reachable by any interleaving of any length. -/
def Threads.Reach (T : Threads ι Op Mem Res S Call Ret)
    (c d : Config ι Op Mem Res S Call Ret) : Prop := ReflTransGen T.Step c d

/-! ### Schedules that can be run -/

/-- One entry of a schedule; `choice` selects an answer where memory leaves it open. -/
inductive Move (ι : Type) (Call : ι → Type)
  | call (i : ι) (c : Call i)
  | step (i : ι) (choice : ℕ)

/-- Calls one after the other, each with the number of its steps and the choice they make. -/
def Move.runs {ι : Type} {Call : ι → Type} (l : List ((i : ι) × Call i × ℕ × ℕ)) :
    List (Move ι Call) :=
  l.flatMap fun x => .call x.1 x.2.1::List.replicate x.2.2.1 (.step x.1 x.2.2.2)

variable {T : Threads ι Op Mem Res S Call Ret} {exec : ℕ → (op : Op) → Mem → Res op × Mem}

/-- The next step of the call that thread `i` is in. -/
def Threads.advance (exec : ℕ → (op : Op) → Mem → Res op × Mem) (i : ι) (choice : ℕ)
    (c : Config ι Op Mem Res S Call Ret) : Option (Config ι Op Mem Res S Call Ret) :=
  match (c.thr i).run with
  | none => none
  | some (call,.get k) => some (c.setThr i ⟨(c.thr i).priv,some (call,k (c.thr i).priv)⟩)
  | some (call,.put s k) => some (c.setThr i ⟨s,some (call,k)⟩)
  | some (call,.act op k) =>
    some ({ c.setThr i ⟨(c.thr i).priv,some (call,k (exec choice op c.mem).1)⟩ with
      mem := (exec choice op c.mem).2 }.log (.act i op (exec choice op c.mem).1))
  | some (call,.ret v) => some ((c.setThr i ⟨(c.thr i).priv,none⟩).log (.done i call v))

def Threads.move (T : Threads ι Op Mem Res S Call Ret) [∀ i s c, Decidable (T.allowed i s c)]
    (exec : ℕ → (op : Op) → Mem → Res op × Mem) (c : Config ι Op Mem Res S Call Ret) :
    Move ι Call → Option (Config ι Op Mem Res S Call Ret)
  | .call i call =>
    if (c.thr i).run.isNone ∧ T.allowed i (c.thr i).priv call then
      some ((c.setThr i ⟨(c.thr i).priv,some (call,T.body i call)⟩).log (.start i call))
    else none
  | .step i choice => Threads.advance exec i choice c

def Threads.play (T : Threads ι Op Mem Res S Call Ret) [∀ i s c, Decidable (T.allowed i s c)]
    (exec : ℕ → (op : Op) → Mem → Res op × Mem) :
    List (Move ι Call) → Config ι Op Mem Res S Call Ret → Option (Config ι Op Mem Res S Call Ret)
  | [], c => some c
  | m::ms, c => (T.move exec c m).bind (T.play exec ms)

theorem Threads.move_step [∀ i s c, Decidable (T.allowed i s c)]
    (hexec : ∀ n op m, T.sem op m (exec n op m).1 (exec n op m).2)
    {c d : Config ι Op Mem Res S Call Ret} {mv : Move ι Call} (h : T.move exec c mv = some d) :
    T.Step c d := by
  cases mv with
  | call i call =>
    simp only [move] at h
    split at h
    · rename_i hc
      obtain rfl := some.inj h
      exact .start call (by simpa using hc.1) hc.2
    · simp at h
  | step i choice =>
    simp only [move,advance] at h
    split at h
    · simp at h
    · rename_i call k hrun
      obtain rfl := some.inj h
      exact .get hrun
    · rename_i call s k hrun
      obtain rfl := some.inj h
      exact .put hrun
    · rename_i call op k hrun
      obtain rfl := some.inj h
      exact .act hrun (hexec _ _ _)
    · rename_i call v hrun
      obtain rfl := some.inj h
      exact .done hrun

theorem Threads.play_reach [∀ i s c, Decidable (T.allowed i s c)]
    (hexec : ∀ n op m, T.sem op m (exec n op m).1 (exec n op m).2) (ms : List (Move ι Call))
    {c d : Config ι Op Mem Res S Call Ret} (h : T.play exec ms c = some d) : T.Reach c d := by
  induction ms generalizing c with
  | nil =>
    obtain rfl := some.inj h
    exact .refl
  | cons mv ms ih =>
    obtain ⟨e,he,hd⟩ := bind_eq_some_iff.mp h
    exact .head (move_step hexec he) (ih hd)

theorem Threads.exists_reach [∀ i s c, Decidable (T.allowed i s c)]
    (hexec : ∀ n op m, T.sem op m (exec n op m).1 (exec n op m).2) {ms : List (Move ι Call)}
    {c : Config ι Op Mem Res S Call Ret} {α : Type} {f : Config ι Op Mem Res S Call Ret → α} {v : α}
    (h : (T.play exec ms c).map f = some v) : ∃ d, T.Reach c d ∧ f d = v := by
  obtain ⟨d,hd,hv⟩ := map_eq_some_iff.mp h
  exact ⟨d,play_reach hexec ms hd,hv⟩

/-! ### Operations that wait -/

/-- The next step of the call that thread `i` is in, where memory may keep it waiting. -/
def Threads.attempt (exec : (op : Op) → Mem → Option (Res op × Mem)) (i : ι)
    (c : Config ι Op Mem Res S Call Ret) : Option (Config ι Op Mem Res S Call Ret) :=
  match (c.thr i).run with
  | none => none
  | some (call,.get k) => some (c.setThr i ⟨(c.thr i).priv,some (call,k (c.thr i).priv)⟩)
  | some (call,.put s k) => some (c.setThr i ⟨s,some (call,k)⟩)
  | some (call,.act op k) => (exec op c.mem).map fun a =>
      { c.setThr i ⟨(c.thr i).priv,some (call,k a.1)⟩ with mem := a.2 }.log (.act i op a.1)
  | some (call,.ret v) => some ((c.setThr i ⟨(c.thr i).priv,none⟩).log (.done i call v))

/-- A schedule of calls and of numbers of steps; none where a thread has to wait. -/
def Threads.schedule (T : Threads ι Op Mem Res S Call Ret) [∀ i s c, Decidable (T.allowed i s c)]
    (exec : (op : Op) → Mem → Option (Res op × Mem)) :
    List (((i : ι) × Call i) ⊕ ι) → Config ι Op Mem Res S Call Ret →
      Option (Config ι Op Mem Res S Call Ret)
  | [], c => some c
  | .inl ⟨i,call⟩::ms, c =>
    if (c.thr i).run.isNone ∧ T.allowed i (c.thr i).priv call then
      T.schedule exec ms ((c.setThr i ⟨(c.thr i).priv,some (call,T.body i call)⟩).log (.start i call))
    else none
  | .inr i::ms, c => (attempt exec i c).bind (T.schedule exec ms)

theorem Threads.attempt_step {exec : (op : Op) → Mem → Option (Res op × Mem)}
    (hexec : ∀ op m a, exec op m = some a → T.sem op m a.1 a.2)
    {c d : Config ι Op Mem Res S Call Ret} {i : ι} (h : attempt exec i c = some d) : T.Step c d := by
  simp only [attempt] at h
  split at h
  · simp at h
  · rename_i call k hrun
    obtain rfl := some.inj h
    exact .get hrun
  · rename_i call s k hrun
    obtain rfl := some.inj h
    exact .put hrun
  · rename_i call op k hrun
    obtain ⟨a,ha,rfl⟩ := map_eq_some_iff.mp h
    exact .act hrun (hexec op c.mem a ha)
  · rename_i call v hrun
    obtain rfl := some.inj h
    exact .done hrun

theorem Threads.schedule_reach [∀ i s c, Decidable (T.allowed i s c)]
    {exec : (op : Op) → Mem → Option (Res op × Mem)}
    (hexec : ∀ op m a, exec op m = some a → T.sem op m a.1 a.2)
    (ms : List (((i : ι) × Call i) ⊕ ι)) {c d : Config ι Op Mem Res S Call Ret}
    (h : T.schedule exec ms c = some d) : T.Reach c d := by
  induction ms generalizing c with
  | nil =>
    obtain rfl := some.inj h
    exact .refl
  | cons mv ms ih =>
    cases mv with
    | inl x =>
      obtain ⟨i,call⟩ := x
      simp only [schedule] at h
      split at h
      · rename_i hc
        exact .head (.start call (by simpa using hc.1) hc.2) (ih h)
      · simp at h
    | inr i =>
      obtain ⟨e,he,hd⟩ := bind_eq_some_iff.mp h
      exact .head (attempt_step hexec he) (ih hd)

/-- A logical state and rules for each thread, and an invariant that ties the memory
and the history to the logical states. -/
structure Outline (T : Threads ι Op Mem Res S Call Ret) (G : ι → Type) where
  rules : (i : ι) → Rules (G i) Op Res
  inv : Mem → List (Event ι Op Res Call Ret) → ((i : ι) → G i) → Prop
  rest : (i : ι) → S i → G i → Prop
  post : (i : ι) → Call i → Ret i → S i → G i → Prop
  start : ∀ {m t gs i s c}, inv m t gs → rest i s (gs i) → T.allowed i s c →
    ∃ g, inv m (.start i c::t) (update gs i g) ∧
      (T.body i c).Obeys (rules i) (post i c) s g
  act : ∀ {m t gs i op r m'}, inv m t gs → (rules i).may (gs i) op → T.sem op m r m' →
    ∃ g, (rules i).next (gs i) op r g ∧ inv m' (.act i op r::t) (update gs i g)
  done : ∀ {m t gs i s c v}, inv m t gs → post i c v s (gs i) →
    ∃ g, inv m (.done i c v::t) (update gs i g) ∧ rest i s g

namespace Outline

variable {T : Threads ι Op Mem Res S Call Ret} {G : ι → Type}

/-- The thread is at rest, or the remainder of its call obeys its rules. -/
def OnTrack (o : Outline T G) (i : ι) (th : Thread (S i) Op Res (Call i) (Ret i))
    (g : G i) : Prop :=
  match th.run with
  | none => o.rest i th.priv g
  | some (c,p) => p.Obeys (o.rules i) (o.post i c) th.priv g

def Covers (o : Outline T G) (c : Config ι Op Mem Res S Call Ret) : Prop :=
  ∃ gs, o.inv c.mem c.trace gs ∧ ∀ i, o.OnTrack i (c.thr i) (gs i)

theorem onTrack_update {o : Outline T G} {thr : (i : ι) → Thread (S i) Op Res (Call i) (Ret i)}
    {gs : (i : ι) → G i} (h : ∀ j, o.OnTrack j (thr j) (gs j)) {i : ι}
    {th : Thread (S i) Op Res (Call i) (Ret i)} {g : G i} (hi : o.OnTrack i th g) (j : ι) :
    o.OnTrack j (update thr i th j) (update gs i g j) := by
  by_cases hj : j = i
  · subst hj
    simpa using hi
  · simpa [hj] using h j

/-- A thread that moves without touching memory, history or its logical state. -/
theorem covers_local {o : Outline T G} {c : Config ι Op Mem Res S Call Ret} {i : ι}
    {gs : (i : ι) → G i} {th : Thread (S i) Op Res (Call i) (Ret i)}
    (hinv : o.inv c.mem c.trace gs) (h : ∀ j, o.OnTrack j (c.thr j) (gs j))
    (hi : o.OnTrack i th (gs i)) : o.Covers (c.setThr i th) := by
  refine ⟨gs,hinv,fun j => ?_⟩
  have hj := onTrack_update h hi j
  rwa [update_eq_self] at hj

theorem covers_step {o : Outline T G} {c d : Config ι Op Mem Res S Call Ret}
    (h : o.Covers c) (hs : T.Step c d) : o.Covers d := by
  obtain ⟨gs,hinv,htr⟩ := h
  cases hs with
  | @start i call hrun hall =>
    have hi : o.rest i (c.thr i).priv (gs i) := by simpa [OnTrack,hrun] using htr i
    obtain ⟨g,hg,hob⟩ := o.start hinv hi hall
    exact ⟨_,hg,onTrack_update htr hob⟩
  | @get i call k hrun =>
    have hi := htr i
    simp only [OnTrack,hrun] at hi
    exact covers_local hinv htr hi
  | @put i call s k hrun =>
    have hi := htr i
    simp only [OnTrack,hrun] at hi
    exact covers_local hinv htr hi
  | @act i call op k r m hrun hsem =>
    have hi := htr i
    simp only [OnTrack,hrun,Prog.Obeys] at hi
    obtain ⟨g,hn,hg⟩ := o.act hinv hi.1 hsem
    exact ⟨_,hg,onTrack_update htr (hi.2 r g hn)⟩
  | @done i call v hrun =>
    have hi := htr i
    simp only [OnTrack,hrun,Prog.Obeys] at hi
    obtain ⟨g,hg,hr⟩ := o.done hinv hi
    exact ⟨_,hg,onTrack_update htr hr⟩

theorem covers {o : Outline T G} {c d : Config ι Op Mem Res S Call Ret}
    (h : o.Covers c) (hr : T.Reach c d) : o.Covers d := by
  induction hr with
  | refl => exact h
  | tail _ hs ih => exact covers_step ih hs

end Outline
end Vessel
