import Mathlib.Data.List.Basic
import Mathlib.Logic.Relation
import Mathlib.Tactic.Common

/-! Where the scheduler of a server looks for work before it parks: first at the kthreads with the
largest published queueing delays, then at the others in turn, from a random one on.  Both loops
count in `checked`. -/
namespace Vessel
namespace StealScan

/-- The kthreads are `ks[0]`, …, `ks[nrks-1]`, and `self` is the one that schedules. -/
structure Config where
  nrks : ℕ
  self : ℕ
  cyclesPerUs : ℕ

/-- What one round of `schedule` meets, from `again` to `park`.  The iokernel may have changed the
published delays at each look at them, and the answer of `steal_work` may depend on anything. -/
structure Round where
  softirqFirst : Bool
  yieldRequested : Bool
  start : ℕ
  qdelay : ℕ → ℕ
  update : ℕ → (ℕ → ℕ) → ℕ → ℕ
  steals : List ℕ → ℕ → Bool
  softirqLast : Bool

/-- The kthread at distance `i` from the first one. -/
def index (c : Config) (start i : ℕ) : ℕ := (start+i)%c.nrks

def maxLoop (qdelay : ℕ → ℕ) : List ℕ → ℕ → Option ℕ → Option ℕ
  | [],_,id => id
  | i::is,max,id =>
    if max < qdelay i then maxLoop qdelay is (qdelay i) (some i) else maxLoop qdelay is max id

/-- `get_max_qdelay_id`, with the delays it leaves. -/
def getMaxQdelayId (c : Config) (start : ℕ) (qdelay : ℕ → ℕ) : Option ℕ × (ℕ → ℕ) :=
  match maxLoop qdelay ((List.range c.nrks).map (index c start)) (1*c.cyclesPerUs) none with
  | none => (none,qdelay)
  | some id => (some id,Function.update qdelay id 0)

/-- The loop over the largest delays, with `n = nrks - checked`.  It ends with `checked` and the
kthreads that were tried, or with none if one of them had work. -/
def delayLoop (c : Config) (w : Round) : ℕ → ℕ → (ℕ → ℕ) → List ℕ → Option (ℕ × List ℕ)
  | 0,checked,_,tried => some (checked+1,tried)
  | n+1,checked,qdelay,tried =>
    match getMaxQdelayId c w.start (w.update checked qdelay) with
    | (none,_) => some (checked+1,tried)
    | (some id,qdelay) =>
      if id = c.self then delayLoop c w n (checked+1) qdelay tried
      else if w.steals tried id then none
      else delayLoop c w n (checked+1) qdelay (tried++[id])

/-- The loop over the kthreads in turn, again with `n = nrks - checked`. -/
def scanLoop (c : Config) (w : Round) : ℕ → ℕ → List ℕ → Option (List ℕ)
  | 0,_,tried => some tried
  | n+1,checked,tried =>
    if index c w.start checked = c.self then scanLoop c w n (checked+1) tried
    else if w.steals tried (index c w.start checked) then none
    else scanLoop c w n (checked+1) (tried++[index c w.start checked])

/-- The kthreads that a round tries which parks; none if it finds work. -/
def Round.run (c : Config) (w : Round) : Option (List ℕ) :=
  if w.softirqFirst then none
  else if w.yieldRequested then some []
  else do
    let (checked,tried) ← delayLoop c w c.nrks 0 w.qdelay []
    let tried ← scanLoop c w (c.nrks-checked) checked tried
    if w.softirqLast then none else some tried

/-- The rounds of `schedule` since it found the local runqueue empty, if all of them park. -/
def schedule (c : Config) : List Round → Option (List ℕ)
  | [] => some []
  | w::ws => do
    let tried ← w.run c
    let rest ← schedule c ws
    some (tried++rest)

/-- The kthread at distance `k` has the largest of the delays above one microsecond, and is the first
one that has it. -/
structure Largest (c : Config) (start : ℕ) (q : ℕ → ℕ) (k : ℕ) : Prop where
  lt : k < c.nrks
  above : c.cyclesPerUs < q (index c start k)
  before : ∀ j < k,q (index c start j) < q (index c start k)
  le : ∀ j < c.nrks,q (index c start j) ≤ q (index c start k)

/-- From one look at the delays, with its number, to the next: the largest delay is cleared, and
others may change. -/
def Next (c : Config) (w : Round) (a b : ℕ × (ℕ → ℕ)) : Prop :=
  b.1 = a.1+1 ∧ b.1 < c.nrks ∧ ∃ k,Largest c w.start a.2 k ∧
    b.2 = w.update b.1 (Function.update a.2 (index c w.start k) 0)

/-- The looks at the delays. -/
def Round.Looks (c : Config) (w : Round) : ℕ × (ℕ → ℕ) → Prop :=
  Relation.ReflTransGen (Next c w) (0,w.update 0 w.qdelay)

/-- At some look the kthread is the one with the largest delay, or its distance from the random index
is larger than the number of every look. -/
def Round.Reaches (c : Config) (w : Round) (i : ℕ) : Prop :=
  w.yieldRequested = false ∧
    ((∃ a,w.Looks c a ∧ ∃ k,Largest c w.start a.2 k ∧ index c w.start k = i) ∨
      ∃ k < c.nrks,index c w.start k = i ∧ ∀ a,w.Looks c a → a.1 < k)

section Scan

variable {c : Config} {w : Round} {n checked i : ℕ} {tried tried' : List ℕ}

theorem maxLoop_spec (q f : ℕ → ℕ) (n s m : ℕ) (r : Option ℕ) :
    (maxLoop q ((List.range' s n).map f) m r = r ∧ ∀ j,s ≤ j → j < s+n → q (f j) ≤ m) ∨
    ∃ k,(s ≤ k ∧ k < s+n) ∧ maxLoop q ((List.range' s n).map f) m r = some (f k) ∧ m < q (f k) ∧
      (∀ j,s ≤ j → j < k → q (f j) < q (f k)) ∧ ∀ j,s ≤ j → j < s+n → q (f j) ≤ q (f k) := by
  induction n generalizing s m r with
  | zero => exact .inl ⟨rfl,fun j _ _ => by omega⟩
  | succ n ih =>
    -- what holds at `s` and behind it holds from `s` on
    have hfrom : ∀ {P : ℕ → Prop} {e : ℕ},P s → (∀ j,s+1 ≤ j → j < e → P j) →
        ∀ j,s ≤ j → j < e → P j := by
      intro P e hs hlater j hj hje
      rcases Nat.eq_or_lt_of_le hj with rfl | hj
      · exact hs
      · exact hlater j hj hje
    have hend : s+1+n = s+(n+1) := by omega
    rw [List.range'_succ,List.map_cons,maxLoop]
    split_ifs with hlt
    · rcases ih (s+1) (q (f s)) (some (f s)) with ⟨heq,hle⟩ | ⟨k,hk,heq,hmax,hbefore,hle⟩
      · rw [hend] at hle
        exact .inr ⟨s,by omega,heq,hlt,fun j _ _ => by omega,hfrom (Nat.le_refl _) hle⟩
      · rw [hend] at hle
        exact .inr ⟨k,by omega,heq,by omega,hfrom hmax hbefore,hfrom (by omega) hle⟩
    · rcases ih (s+1) m r with ⟨heq,hle⟩ | ⟨k,hk,heq,hmax,hbefore,hle⟩
      · rw [hend] at hle
        exact .inl ⟨heq,hfrom (by omega) hle⟩
      · rw [hend] at hle
        exact .inr ⟨k,by omega,heq,hmax,hfrom (by omega) hbefore,hfrom (by omega) hle⟩

theorem getMaxQdelayId_spec (c : Config) (start : ℕ) (q : ℕ → ℕ) :
    (getMaxQdelayId c start q = (none,q) ∧ ∀ k,¬Largest c start q k) ∨
    ∃ k,getMaxQdelayId c start q =
        (some (index c start k),Function.update q (index c start k) 0) ∧ Largest c start q k := by
  rw [getMaxQdelayId,List.range_eq_range',Nat.one_mul]
  rcases maxLoop_spec q (index c start) c.nrks 0 c.cyclesPerUs none with
    ⟨heq,hle⟩ | ⟨k,hk,heq,hmax,hbefore,hle⟩
  · refine .inl ⟨by rw [heq],fun k hk => ?_⟩
    exact absurd (hle k (Nat.zero_le _) (by have := hk.lt; omega)) (Nat.not_le_of_lt hk.above)
  · exact .inr ⟨k,by rw [heq],by omega,hmax,fun j => hbefore j (Nat.zero_le _),
      fun j hj => hle j (Nat.zero_le _) (by omega)⟩

theorem Largest.unique {start k k' : ℕ} {q : ℕ → ℕ} (h : Largest c start q k)
    (h' : Largest c start q k') : k = k' := by
  rcases Nat.lt_trichotomy k k' with hlt | heq | hlt
  · exact absurd (h'.before k hlt) (Nat.not_lt_of_le (h.le k' h'.lt))
  · exact heq
  · exact absurd (h.before k' hlt) (Nat.not_lt_of_le (h'.le k h.lt))

theorem Largest.exists_iff {start k : ℕ} {q : ℕ → ℕ} (h : Largest c start q k) :
    (∃ k,Largest c start q k ∧ index c start k = i) ↔ index c start k = i := by
  refine ⟨?_,fun hk => ⟨k,h,hk⟩⟩
  rintro ⟨k',hk',rfl⟩
  rw [h.unique hk']

/-- One look of the loop: at small delays only it is the last one, and else it brings the kthread with
the largest delay. -/
theorem delayLoop_look {q : ℕ → ℕ} {m : ℕ} (hi : i ≠ c.self)
    (h : delayLoop c w (n+1) checked q tried = some (m,tried')) :
    ((∀ k,¬Largest c w.start (w.update checked q) k) ∧ m = checked+1 ∧ tried' = tried) ∨
    ∃ k next,Largest c w.start (w.update checked q) k ∧
      (i ∈ next ↔ i ∈ tried ∨ index c w.start k = i) ∧
      delayLoop c w n (checked+1) (Function.update (w.update checked q) (index c w.start k) 0) next =
        some (m,tried') := by
  rw [delayLoop] at h
  rcases getMaxQdelayId_spec c w.start (w.update checked q) with ⟨hget,hnone⟩ | ⟨k,hget,hk⟩
  · rw [hget] at h
    cases h
    exact .inl ⟨hnone,rfl,rfl⟩
  · rw [hget] at h
    dsimp only at h
    split_ifs at h with hself hsteal
    · exact .inr ⟨k,tried,hk,by simp [hself,hi.symm],h⟩
    · exact .inr ⟨k,_,hk,by simp [eq_comm],h⟩

/-- From a look with the number `checked` on, the loop tries those with the largest delays and ends
behind the last look. -/
theorem delayLoop_spec {q : ℕ → ℕ} {m : ℕ} (hi : i ≠ c.self) (hn : checked+(n+1) = c.nrks)
    (h : delayLoop c w (n+1) checked q tried = some (m,tried')) :
    let Looks := Relation.ReflTransGen (Next c w) (checked,w.update checked q)
    (i ∈ tried' ↔ i ∈ tried ∨
      ∃ a,Looks a ∧ ∃ k,Largest c w.start a.2 k ∧ index c w.start k = i) ∧
    ∀ k < c.nrks,m ≤ k ↔ ∀ a,Looks a → a.1 < k := by
  induction n generalizing checked q tried with
  | zero =>
    have hlast : ∀ a,Relation.ReflTransGen (Next c w) (checked,w.update checked q) a ↔
        a = (checked,w.update checked q) := fun _ => Relation.reflTransGen_iff_eq fun b hb => by
      have := hb.1
      have := hb.2.1
      dsimp only at *
      omega
    simp only [hlast,exists_eq_left,forall_eq]
    rcases delayLoop_look hi h with ⟨hnone,rfl,rfl⟩ | ⟨k₀,next,hk₀,hmem,h⟩
    · exact ⟨by simp [hnone],fun k _ => Iff.rfl⟩
    · cases h
      exact ⟨by rw [hmem,hk₀.exists_iff],fun k hk => by omega⟩
  | succ n ih =>
    rcases delayLoop_look hi h with ⟨hnone,rfl,rfl⟩ | ⟨k₀,next,hk₀,hmem,h⟩
    · have hlast : ∀ a,Relation.ReflTransGen (Next c w) (checked,w.update checked q) a ↔
          a = (checked,w.update checked q) := fun _ =>
        Relation.reflTransGen_iff_eq fun _ ⟨_,_,k,hk,_⟩ => hnone k hk
      simp only [hlast,exists_eq_left,forall_eq]
      exact ⟨by simp [hnone],fun k _ => Iff.rfl⟩
    · obtain ⟨hin,hend⟩ := ih (by omega) h
      have hlooks : ∀ a,Relation.ReflTransGen (Next c w) (checked,w.update checked q) a ↔
          a = (checked,w.update checked q) ∨ Relation.ReflTransGen (Next c w) (checked+1,
            w.update (checked+1)
              (Function.update (w.update checked q) (index c w.start k₀) 0)) a := fun a => by
        refine Relation.ReflTransGen.cases_head_iff.trans (or_congr eq_comm ⟨?_,fun h => ?_⟩)
        · rintro ⟨⟨j,q'⟩,⟨hj,-,k,hk,hq⟩,h⟩
          dsimp only at hj hq
          rwa [hq,hj,← hk₀.unique hk] at h
        · exact ⟨_,⟨rfl,by dsimp only; omega,k₀,hk₀,rfl⟩,h⟩
      refine ⟨?_,fun k hk => (hend k hk).trans ?_⟩
      · rw [hin,hmem,or_assoc]
        simp only [hlooks,or_and_right,exists_or,exists_eq_left,hk₀.exists_iff]
      · simp only [hlooks,or_imp,forall_and,forall_eq]
        refine (and_iff_right_of_imp fun hall => ?_).symm
        have := hall _ .refl
        dsimp only at this
        omega

theorem mem_scanLoop (hi : i ≠ c.self) (h : scanLoop c w n checked tried = some tried') :
    i ∈ tried' ↔ i ∈ tried ∨ ∃ k < checked+n,checked ≤ k ∧ index c w.start k = i := by
  induction n generalizing checked tried with
  | zero =>
    cases h
    refine ⟨.inl,?_⟩
    rintro (hmem | ⟨k,hk,hle,-⟩)
    · exact hmem
    · omega
  | succ n ih =>
    -- the positions from `checked` on are `checked` and those after it
    have hsplit : (∃ k < checked+(n+1),checked ≤ k ∧ index c w.start k = i) ↔
        index c w.start checked = i ∨
          ∃ k < checked+1+n,checked+1 ≤ k ∧ index c w.start k = i := by
      constructor
      · rintro ⟨k,hk,hle,hki⟩
        rcases Nat.eq_or_lt_of_le hle with rfl | hlt
        · exact .inl hki
        · exact .inr ⟨k,by omega,hlt,hki⟩
      · rintro (hki | ⟨k,hk,hle,hki⟩)
        · exact ⟨checked,by omega,Nat.le_refl _,hki⟩
        · exact ⟨k,by omega,by omega,hki⟩
    rw [scanLoop] at h
    rw [hsplit]
    split_ifs at h with hself hsteal
    · rw [ih h,hself]
      simp [hi.symm]
    · rw [ih h,List.mem_append,List.mem_singleton,or_assoc,eq_comm (a:=i)]

theorem mem_run (hlt : i < c.nrks) (hi : i ≠ c.self) (h : w.run c = some tried) :
    i ∈ tried ↔ w.Reaches c i := by
  obtain ⟨-,h⟩ := Option.ite_none_left_eq_some.mp h
  by_cases hyield : w.yieldRequested
  · rw [if_pos hyield] at h
    cases h
    simp [Round.Reaches,hyield]
  · rw [if_neg hyield] at h
    obtain ⟨⟨checked,victims⟩,hdelay,h⟩ := Option.bind_eq_some_iff.mp h
    obtain ⟨all,hscan,h⟩ := Option.bind_eq_some_iff.mp h
    obtain ⟨-,⟨⟩⟩ := Option.ite_none_left_eq_some.mp h
    obtain ⟨n,hn⟩ := Nat.exists_eq_succ_of_ne_zero (Nat.ne_zero_of_lt hlt)
    rw [hn] at hdelay
    obtain ⟨hvictims,hend⟩ := delayLoop_spec hi (by omega) hdelay
    rw [mem_scanLoop hi hscan,hvictims,Round.Reaches,and_iff_right (by simpa using hyield)]
    simp only [List.not_mem_nil,false_or]
    refine or_congr Iff.rfl (exists_congr fun k => ?_)
    constructor
    · rintro ⟨hk,hle,hki⟩
      have hk : k < c.nrks := by omega
      exact ⟨hk,hki,(hend k hk).mp hle⟩
    · rintro ⟨hk,hki,hall⟩
      have hle := (hend k hk).mpr hall
      exact ⟨by omega,hle,hki⟩

theorem mem_schedule {ws : List Round} (hlt : i < c.nrks) (hi : i ≠ c.self)
    (h : schedule c ws = some tried) : i ∈ tried ↔ ∃ w ∈ ws,w.Reaches c i := by
  induction ws generalizing tried with
  | nil =>
    cases h
    simp
  | cons w ws ih =>
    obtain ⟨first,hfirst,h⟩ := Option.bind_eq_some_iff.mp h
    obtain ⟨rest,hrest,h⟩ := Option.bind_eq_some_iff.mp h
    cases h
    rw [List.mem_append,mem_run hlt hi hfirst,ih hrest,List.exists_mem_cons_iff]

/-- Before it parks, `schedule` has tried all other kthreads just if its rounds have reached them. -/
theorem all_tried_iff {ws : List Round} (h : schedule c ws = some tried) :
    (∀ i < c.nrks,i ≠ c.self → i ∈ tried) ↔
      ∀ i < c.nrks,i ≠ c.self → ∃ w ∈ ws,w.Reaches c i :=
  forall_congr' fun _ => forall_congr' fun hlt => forall_congr' fun hi => mem_schedule hlt hi h

end Scan

/-- A round in which nobody has work. -/
def Round.idle (start : ℕ) (qdelay : ℕ → ℕ) : Round :=
  ⟨false,false,start,qdelay,fun _ q => q,fun _ _ => false,false⟩

/-- The second look finds small delays only.  The kthread itself and the one with the large delay are at
the distances 0 and 1, so that the others are taken in turn. -/
theorem all_tried_iff_delayed :
    let w := Round.idle 1 fun i => if i = 2 then 5000 else 0
    ∃ tried ∈ schedule ⟨3,1,2000⟩ [w],∀ i < 3,i ≠ 1 → i ∈ tried ∧
      ∃ w' ∈ [w],w'.Reaches ⟨3,1,2000⟩ i := by
  intro w
  have hall : ∀ i < 3,i ≠ 1 → i ∈ [2,0] := by decide
  have hreach := (all_tried_iff (show schedule ⟨3,1,2000⟩ [w] = some [2,0] by decide)).mp hall
  exact ⟨[2,0],by decide,fun i hi hne => ⟨hall i hi hne,hreach i hi hne⟩⟩

/-- Of two kthreads the first one parks without a look at the other. -/
theorem sibling_not_tried : schedule ⟨2,0,2000⟩ [.idle 1 fun _ => 0] = some [] := by
  decide

end StealScan
end Vessel
