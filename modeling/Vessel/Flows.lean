import Mathlib.Data.List.Basic
import Mathlib.Tactic.Common
import Vessel.Bitmap
import Vessel.Machine

/-! Flow steering (`kthread.c`).  A kthread that wakes or parks marks itself in `kthread_awake`,
counts the change in `kthread_gen` and tries to install the flow assignment for the kthreads that
are awake; one that does not get the lock leaves that to the one that has it. -/
namespace Vessel

open Function
namespace Flows

/-- The number of kthreads, and of the 64-bit words of `kthread_awake`. -/
structure Platform where
  maxks : ℕ
  words : ℕ
  fits : maxks ≤ 64*words

/-- The second loop of `flows_update`, which deals the parked kthreads out to the awake ones. -/
def steerAway (awakeks : List ℕ) : ℕ → List ℕ → (ℕ → ℕ) → ℕ → ℕ
  | _,[],fgMap => fgMap
  | pos,i::is,fgMap =>
    steerAway awakeks (if pos+1 = awakeks.length then 0 else pos+1) is
      (update fgMap i (awakeks.getD pos 0))

/-- The kthread that each flow group is assigned to. -/
def fgMap (maxks : ℕ) (kawake : Bitmap) : ℕ → ℕ :=
  steerAway (kawake.setBits maxks) 0 (kawake.clearedBits maxks) id

/-- Where a kthread is in `flows_notify_waking`, `flows_notify_parking` and `flows_update`. -/
inductive Pos where
  | idle
  | noted
  | tryLock
  | locked
  | fresh (curGen : ℕ)
  | copying (w : ℕ) (kawake : Bitmap)
  | unlocking
  | recheck
  | compare (assignmentGen : ℕ)
  | same

/-- The shared variables, the kthread that has `flow_assignment_lock`, and the assignment that
`steer_flows` got last. -/
structure Sys where
  kthreadAwake : Bitmap
  kthreadGen : ℕ
  flowAssignmentGen : ℕ
  lock : Option ℕ
  pos : ℕ → Pos
  installed : Option (ℕ → ℕ)

def Sys.init : Sys := ⟨.empty,0,0,none,fun _ => .idle,none⟩

def Sys.setPos (s : Sys) (i : ℕ) (p : Pos) : Sys := { s with pos := update s.pos i p }

def copyWord (w : ℕ) (kthreadAwake kawake : Bitmap) : Bitmap :=
  fun j => if j/64 = w then kthreadAwake j else kawake j

/-- The next step of a call. -/
def Sys.act (c : Platform) (s : Sys) (i : ℕ) : Option Sys :=
  match s.pos i with
  | .idle => none
  | .noted => some ({ s with kthreadGen := s.kthreadGen+1 }.setPos i .tryLock)
  | .tryLock =>
    match s.lock with
    | none => some ({ s with lock := some i }.setPos i .locked)
    | some _ => some (s.setPos i .idle)
  | .locked =>
    if s.kthreadGen = s.flowAssignmentGen then some (s.setPos i .same)
    else some (s.setPos i (.fresh s.kthreadGen))
  -- the copy starts from what is on the stack; every word of it is written before it is read
  | .fresh curGen => some ({ s with flowAssignmentGen := curGen }.setPos i (.copying 0 .empty))
  | .copying w kawake =>
    if w < c.words then some (s.setPos i (.copying (w+1) (copyWord w s.kthreadAwake kawake)))
    else if kawake.setBits c.maxks = [] then some (s.setPos i .unlocking)
    else some ({ s with installed := some (fgMap c.maxks kawake) }.setPos i .unlocking)
  | .unlocking => some ({ s with lock := none }.setPos i .recheck)
  | .recheck => some (s.setPos i (.compare s.flowAssignmentGen))
  | .compare assignmentGen =>
    if assignmentGen ≠ s.kthreadGen then some (s.setPos i .tryLock) else some (s.setPos i .idle)
  | .same => some ({ s with lock := none }.setPos i .idle)

inductive Event where
  | waking (i : ℕ)
  | parking (i : ℕ)
  | act (i : ℕ)

/-- The bit that starts a call. -/
def Sys.note (c : Platform) (s : Sys) (i : ℕ) (awake : Bool) : Option Sys :=
  match s.pos i with
  | .idle =>
    if i < c.maxks then
      some ({ s with kthreadAwake := update s.kthreadAwake i awake }.setPos i .noted)
    else none
  | _ => none

def step (c : Platform) (s : Sys) : Event → Option Sys
  | .waking i => s.note c i true
  | .parking i => s.note c i false
  | .act i => s.act c i

/-- No kthread fails to get the lock while the one that has it is past its look at
`kthread_gen` and will not look again. -/
def heeded (s : Sys) : Event → Prop
  | .act i => ∀ j ∈ s.lock,s.pos i = .tryLock → s.pos j ≠ .same
  | _ => True

/-! ### The assignment -/

variable {c : Platform} {s t : Sys} {i j : ℕ} {e : Event}

theorem steerAway_apply {awakeks : List ℕ} {pos : ℕ} (hpos : pos < awakeks.length) (is : List ℕ)
    (f : ℕ → ℕ) (k : ℕ) :
    steerAway awakeks pos is f k ∈ awakeks ∨ k ∉ is ∧ steerAway awakeks pos is f k = f k := by
  induction is generalizing pos f with
  | nil => exact .inr ⟨by simp,rfl⟩
  | cons i is ih =>
    have hnext : (if pos+1 = awakeks.length then 0 else pos+1) < awakeks.length := by
      split_ifs <;> omega
    rw [steerAway]
    rcases ih hnext (update f i (awakeks.getD pos 0)) with hmem | ⟨hk,heq⟩
    · exact .inl hmem
    · rw [heq]
      by_cases hki : k = i
      · left
        simp [hki,hpos]
      · right
        simp [hki,hk]

theorem fgMap_awake {maxks : ℕ} {kawake : Bitmap} (hsome : kawake.setBits maxks ≠ [])
    (hi : i < maxks) : fgMap maxks kawake i < maxks ∧ kawake (fgMap maxks kawake i) = true := by
  have hpos : 0 < (kawake.setBits maxks).length := List.length_pos_of_ne_nil hsome
  have hset : fgMap maxks kawake i ∈ kawake.setBits maxks := by
    rcases steerAway_apply hpos (kawake.clearedBits maxks) id i with hmem | ⟨hnot,heq⟩
    · exact hmem
    · rw [fgMap,heq]
      simpa [Bitmap.setBits,Bitmap.clearedBits,hi] using hnot
  simpa [Bitmap.setBits] using hset

theorem fgMap_congr {maxks : ℕ} {a b : Bitmap} (h : ∀ j < maxks,a j = b j) :
    fgMap maxks a = fgMap maxks b := by
  have hset : a.setBits maxks = b.setBits maxks :=
    List.filter_congr fun j hj => h j (List.mem_range.mp hj)
  have hclear : a.clearedBits maxks = b.clearedBits maxks :=
    List.filter_congr fun j hj => by rw [h j (List.mem_range.mp hj)]
  rw [fgMap,fgMap,hset,hclear]

/-! ### Generations -/

/-- The kthread has the lock. -/
@[grind] def Pos.Inside : Pos → Prop
  | .locked | .fresh _ | .copying _ _ | .unlocking | .same => True
  | _ => False

/-- The kthread will still compare the generations and find a difference. -/
@[grind] def Pos.Responsible (kthreadGen : ℕ) : Pos → Prop
  | .tryLock | .locked | .fresh _ | .copying _ _ | .unlocking | .recheck => True
  | .compare assignmentGen => assignmentGen ≠ kthreadGen
  | .idle | .noted | .same => False

/-- The copy has the bit of each kthread that is not just about to count its change. -/
@[grind =] def Sys.Agrees (c : Platform) (s : Sys) (kawake : Bitmap) (w : ℕ) : Prop :=
  ∀ j < c.maxks,j/64 < w → kawake j = s.kthreadAwake j ∨ s.pos j = .noted

@[grind cases] structure Inv (c : Platform) (s : Sys) : Prop where
  le : s.flowAssignmentGen ≤ s.kthreadGen
  fresh : ∀ i g,s.pos i = .fresh g → s.flowAssignmentGen < g ∧ g ≤ s.kthreadGen
  holder : ∀ i,(s.pos i).Inside ↔ s.lock = some i
  responsible : s.kthreadGen ≠ s.flowAssignmentGen → ∃ i,(s.pos i).Responsible s.kthreadGen
  copied : ∀ i w kawake,s.pos i = .copying w kawake → s.kthreadGen = s.flowAssignmentGen →
    s.Agrees c kawake w
  installed : s.kthreadGen = s.flowAssignmentGen → (∀ i w kawake,s.pos i ≠ .copying w kawake) →
    ∃ kawake,s.Agrees c kawake c.words ∧
      (kawake.setBits c.maxks ≠ [] → s.installed = some (fgMap c.maxks kawake))

theorem inv_init (c : Platform) : Inv c .init where
  le := Nat.le_refl 0
  fresh := nofun
  holder := by simp [Sys.init,Pos.Inside]
  responsible := by simp [Sys.init]
  copied := nofun
  installed _ _ := ⟨.empty,fun _ _ _ => .inl rfl,by simp [Bitmap.setBits]⟩

@[simp] theorem pos_setPos (s : Sys) (i k : ℕ) (p : Pos) :
    (s.setPos i p).pos k = if k = i then p else s.pos k :=
  update_apply s.pos i p k

theorem note_inv {awake : Bool} (h : Inv c s) (hn : s.note c i awake = some t) : Inv c t := by
  unfold Sys.note at hn
  split at hn <;> try cases hn
  split_ifs at hn
  cases hn
  constructor <;> simp only [Sys.setPos,update_apply] <;> grind

theorem Inv.count (h : Inv c s) (hp : s.pos i = .noted) :
    Inv c ({ s with kthreadGen := s.kthreadGen+1 }.setPos i .tryLock) := by
  constructor <;> simp only [Sys.setPos,update_apply] <;> grind

theorem Inv.store {g : ℕ} (h : Inv c s) (hp : s.pos i = .fresh g) :
    Inv c ({ s with flowAssignmentGen := g }.setPos i (.copying 0 .empty)) := by
  constructor <;> simp only [Sys.setPos,update_apply] <;> grind

theorem Inv.copy {w : ℕ} {kawake : Bitmap} (h : Inv c s) (hp : s.pos i = .copying w kawake) :
    Inv c (s.setPos i (.copying (w+1) (copyWord w s.kthreadAwake kawake))) := by
  constructor <;> simp only [Sys.setPos,update_apply] <;> grind [copyWord]

/-- The end of the update: the assignment for the copy is installed, unless nobody was awake. -/
theorem Inv.steer {w : ℕ} {kawake : Bitmap} (h : Inv c s) (installed : Option (ℕ → ℕ))
    (hp : s.pos i = .copying w kawake) (hw : ¬w < c.words)
    (hinst : kawake.setBits c.maxks ≠ [] → installed = some (fgMap c.maxks kawake)) :
    Inv c ({ s with installed := installed }.setPos i .unlocking) := by
  constructor <;> simp only [Sys.setPos,update_apply] <;> grind

theorem Inv.move {q : Pos} (h : Inv c s) (lock : Option ℕ)
    (hpos : s.pos i ≠ .noted ∧ ∀ w kawake,s.pos i ≠ .copying w kawake ∧ q ≠ .copying w kawake)
    (hfresh : ∀ g,q = .fresh g → s.flowAssignmentGen < g ∧ g ≤ s.kthreadGen)
    (hlock : ∀ k,(if k = i then q else s.pos k).Inside ↔ lock = some k)
    (hresp : s.kthreadGen ≠ s.flowAssignmentGen →
      ∃ k,(if k = i then q else s.pos k).Responsible s.kthreadGen) :
    Inv c ({ s with lock := lock }.setPos i q) := by
  constructor <;> simp only [Sys.setPos,update_apply] <;> grind

/-- A kthread that does not get the lock leaves the update to the one that has it, which has not
looked at the generation yet or will look again. -/
theorem Inv.giveUp (h : Inv c s) (hp : s.pos i = .tryLock) (hl : s.lock = some j)
    (hok : s.pos j ≠ .same) : Inv c (s.setPos i .idle) := by
  have hin : (s.pos j).Inside := (h.holder j).mpr hl
  have hresp : (s.pos j).Responsible s.kthreadGen := by
    cases hpj : s.pos j <;> grind
  exact h.move s.lock (by grind) (by grind) (by grind) (by grind)

theorem act_inv (h : Inv c s) (hok : heeded s (.act i)) (ha : s.act c i = some t) : Inv c t := by
  unfold Sys.act at ha
  cases hp : s.pos i with simp only [hp] at ha
  | idle => cases ha
  | noted =>
    cases ha
    exact h.count hp
  | tryLock =>
    cases hl : s.lock with simp only [hl] at ha
    | none =>
      cases ha
      exact h.move _ (by grind) (by grind) (by grind) (by grind)
    | some j =>
      cases ha
      exact h.giveUp hp hl (hok j hl hp)
  | fresh g =>
    cases ha
    exact h.store hp
  | copying w kawake =>
    split_ifs at ha with hw hnone <;> cases ha
    · exact h.copy hp
    · exact h.steer s.installed hp hw fun hsome => absurd hnone hsome
    · exact h.steer _ hp hw fun _ => rfl
  | unlocking | recheck | same =>
    cases ha
    exact h.move _ (by grind) (by grind) (by grind) (by grind)
  | locked | compare =>
    split_ifs at ha <;> cases ha
    all_goals exact h.move s.lock (by grind) (by grind) (by grind) (by grind)

theorem step_inv (h : Inv c s) (hok : heeded s e) (hstep : step c s e = some t) : Inv c t := by
  cases e with
  | waking i | parking i => exact note_inv h hstep
  | act i => exact act_inv h hok hstep

theorem step_idle (h : ∀ i,c.maxks ≤ i → s.pos i = .idle) (hstep : step c s e = some t) :
    ∀ i,c.maxks ≤ i → t.pos i = .idle := by
  have hset {s' : Sys} {j : ℕ} {p : Pos} (hs : s'.pos = s.pos) (hj : j < c.maxks) :
      ∀ i,c.maxks ≤ i → (s'.setPos j p).pos i = .idle := by
    intro i hi
    rw [pos_setPos,if_neg (by omega),hs]
    exact h i hi
  have hnote {j : ℕ} {awake : Bool} (hn : s.note c j awake = some t) :
      ∀ i,c.maxks ≤ i → t.pos i = .idle := by
    unfold Sys.note at hn
    split at hn <;> try cases hn
    split_ifs at hn with hj
    cases hn
    exact hset rfl hj
  cases e with
  | waking j | parking j => exact hnote hstep
  | act j =>
    have hj : j < c.maxks := by
      by_contra hle
      simp [step,Sys.act,h j (by omega)] at hstep
    simp only [step,Sys.act] at hstep
    split at hstep <;> try cases hstep
    all_goals try exact hset rfl hj
    all_goals split at hstep <;> try cases hstep
    all_goals try exact hset rfl hj
    split_ifs at hstep <;> cases hstep
    all_goals exact hset rfl hj

/-- Once all calls are over, the assignment that was installed last is the one for the kthreads
that are awake, and it assigns every flow group to one of them. -/
theorem flows_reflect_awake {es : List Event} (hok : Machine.Along (step c) heeded .init es)
    (h : Machine.run (step c) .init es = some t) (hidle : ∀ i < c.maxks,t.pos i = .idle)
    (hsome : t.kthreadAwake.setBits c.maxks ≠ []) :
    t.installed = some (fgMap c.maxks t.kthreadAwake) ∧
      ∀ i < c.maxks,fgMap c.maxks t.kthreadAwake i < c.maxks ∧
        t.kthreadAwake (fgMap c.maxks t.kthreadAwake i) = true := by
  have hinv : Inv c t := Machine.run_invariant step_inv (inv_init c) hok h
  have hidle (i : ℕ) : t.pos i = .idle := by
    by_cases hi : i < c.maxks
    · exact hidle i hi
    · exact Machine.run_keeps (P:=fun s => ∀ i,c.maxks ≤ i → s.pos i = .idle) step_idle
        (fun _ _ => rfl) h i (by omega)
  have hgen : t.kthreadGen = t.flowAssignmentGen := by
    by_contra hne
    obtain ⟨i,hi⟩ := hinv.responsible hne
    simp [hidle,Pos.Responsible] at hi
  obtain ⟨kawake,hagree,hinst⟩ := hinv.installed hgen (by simp [hidle])
  have hbits (j : ℕ) (hj : j < c.maxks) : kawake j = t.kthreadAwake j := by
    have hfits := c.fits
    rcases hagree j hj (by omega) with heq | hn
    · exact heq
    · simp [hidle] at hn
  have hset : kawake.setBits c.maxks = t.kthreadAwake.setBits c.maxks :=
    List.filter_congr fun j hj => hbits j (List.mem_range.mp hj)
  refine ⟨?_,fun i hi => fgMap_awake hsome hi⟩
  rw [hinst (hset ▸ hsome),fgMap_congr hbits]

instance : (p : Pos) → Decidable (p = .idle)
  | .idle => isTrue rfl
  | .noted | .tryLock | .locked | .fresh _ | .copying _ _ | .unlocking | .recheck | .compare _
  | .same => isFalse nofun

instance : (p : Pos) → Decidable (p = .tryLock)
  | .tryLock => isTrue rfl
  | .idle | .noted | .locked | .fresh _ | .copying _ _ | .unlocking | .recheck | .compare _
  | .same => isFalse nofun

instance : (p : Pos) → Decidable (p = .same)
  | .same => isTrue rfl
  | .idle | .noted | .tryLock | .locked | .fresh _ | .copying _ _ | .unlocking | .recheck
  | .compare _ => isFalse nofun

instance (s : Sys) : (e : Event) → Decidable (heeded s e)
  | .waking _ | .parking _ => instDecidableTrue
  | .act i => inferInstanceAs (Decidable (∀ j ∈ s.lock,s.pos i = .tryLock → s.pos j ≠ .same))

def trio : Platform := ⟨3,1,by decide⟩

/-- A whole call of one kthread while nobody else has the lock. -/
def update (i : ℕ) : List Event := List.replicate 8 (.act i)

theorem flows_reflect_awake_two :
    ∃ t ∈ Machine.run (step trio) .init (.waking 2::.act 2::update 2++[.waking 0,.act 0,.parking 2,
        .act 2]++update 0++[.act 2,.act 2,.act 2]),
      t.kthreadAwake.setBits 3 = [0] ∧ t.installed = some (fgMap 3 t.kthreadAwake) := by
  obtain ⟨t,ht,hidle,hset⟩ : ∃ t ∈ Machine.run (step trio) .init (.waking 2::.act 2::update 2++
      [.waking 0,.act 0,.parking 2,.act 2]++update 0++[.act 2,.act 2,.act 2]),
      (∀ i < 3,t.pos i = .idle) ∧ t.kthreadAwake.setBits 3 = [0] := by decide +kernel
  exact ⟨t,ht,hset,(flows_reflect_awake (c:=trio) (by decide +kernel) ht hidle
    (by simp [trio,hset])).1⟩

/-- Kthread 1 finds that its change has been dealt with; before it gives the lock back, kthread 2
parks and does not get the lock.  Nobody looks at the generation again, and the flows of kthread 2
stay with it. -/
theorem parked_kthread_keeps_flows :
    ∃ t ∈ Machine.run (step trio) .init (.waking 2::.act 2::update 2++[.waking 0,.act 0,.waking 1,
        .act 1]++update 0++[.act 1,.act 1,.parking 2,.act 2,.act 2,.act 1]),
      (∀ i < 3,t.pos i = .idle) ∧ t.kthreadAwake.setBits 3 = [0,1] ∧
        (∃ f ∈ t.installed,f 2 = 2) ∧ t.kthreadAwake 2 = false := by
  decide +kernel

end Flows
end Vessel
