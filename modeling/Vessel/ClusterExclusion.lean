import Vessel.Csched

/-! Every cluster is in one place.
The memory of a cluster is free, or the cluster is held by one party, listed for one core, or parked.
The place of a cluster is not stored anywhere; the outline keeps it as a ghost function of its
address, and each access that moves a cluster changes it at that address only. -/
namespace Vessel

open Prog Function

/-- Why a party holds a cluster: it has taken it to run it, the cluster has exited on
it, or the party is setting the cluster up. -/
inductive Role
  | taken
  | exited
  | built
  deriving DecidableEq

inductive Place
  | free
  | held (p : Party) (r : Role)
  | listed (core : ℕ)
  | parked
  deriving DecidableEq

/-- The clusters that a party holds, and what a core knows of itself.  `leaving` says
that the core has parked or freed its cluster and still points to it. -/
structure Holding where
  taken : Option ℕ
  exited : Option ℕ
  built : Option ℕ
  cur : Option ℕ
  user : Bool
  leaving : Bool

/-! ### What a history says -/

section Trace

variable {C : Type}

/-- Core `i` has parked or freed its cluster and has not stored `cur_cluster` since. -/
def leavingCluster (i : ℕ) : SystemTrace C → Bool
  | [] => false
  | .act p (.storeParked _ b) _::t => b && p == .core i || leavingCluster i t
  | .act p (.deallocCluster _) _::t => p == .core i || leavingCluster i t
  | .act _ (.storeCurCluster j _) _::t => j != i && leavingCluster i t
  | _::t => leavingCluster i t

/-- How often cluster `a` was parked. -/
def parkings (a : ℕ) : SystemTrace C → ℕ
  | [] => 0
  | .act _ (.storeParked x b) _::t => (if x = a ∧ b = true then 1 else 0) + parkings a t
  | _::t => parkings a t

/-- How often a compare-and-swap took cluster `a`. -/
def takings (a : ℕ) : SystemTrace C → ℕ
  | [] => 0
  | .act _ (.casParked x) r::t => (if x = a ∧ r = some true then 1 else 0) + takings a t
  | _::t => takings a t

/-- The party that took cluster `a` last, from a list or by a compare-and-swap. -/
def taker (a : ℕ) : SystemTrace C → Option Party
  | [] => none
  | .act p (.popCluster _) r::t => if r = some a then some p else taker a t
  | .act p (.casParked x) r::t => if x = a ∧ r = some true then some p else taker a t
  | _::t => taker a t

end Trace

/-! ### Rules -/

def holdingRules (p : Party) : Rules Holding Op Res where
  may v
    | .popCluster c => p = .core c ∧ v.taken = none
    | .casParked _ => v.taken = none
    | .storeParked a true => (∃ c, p = .core c) ∧ v.taken = some a ∧ v.user = false
    | .storeParked a false => v.built = some a
    | .storeToExit a true => v.taken = some a ∧ v.cur = some a ∧ v.user = false
    | .storeToExit a false => v.built = some a
    | .attachCluster _ a => v.built = some a
    | .deallocCluster a => (∃ c, p = .core c) ∧ v.exited = some a
    | .loadCurCluster c => p = .core c
    | .storeCurCluster c x => p = .core c ∧ v.taken = x ∧ v.user = false
    | .enterUser c => p = .core c ∧ v.cur.isSome ∧ v.taken = v.cur
    | .leaveUser c => p = .core c
    | _ => True
  next v
    | .popCluster _, r, v' => v' = { v with taken := r }
    | .casParked a, r, v' => v' = { v with taken := if r = some true then some a else none }
    | .storeParked _ b, _, v' => v' = if b then { v with taken := none, leaving := true } else v
    | .storeToExit a b, _, v' => v' = if b then { v with taken := none, exited := some a } else v
    | .loadToExit a, r, v' => v' = v ∧ (v.exited = some a → r = true)
    | .attachCluster _ _, _, v' => v' = { v with built := none }
    | .allocCluster, r, v' => v' = { v with built := r }
    | .deallocCluster _, _, v' => v' = { v with exited := none, leaving := true }
    | .loadCurCluster _, r, v' => r = v.cur ∧ v' = v
    | .storeCurCluster _ x, _, v' => v' = { v with cur := x, exited := none, leaving := false }
    | .enterUser _, _, v' => v' = { v with user := true }
    | .leaveUser _, _, v' => v' = { v with user := false }
    | _, _, v' => v' = v

theorem taskInit_holds (pref : ℕ) {v : Holding} :
    (taskInit pref).Obeys (holdingRules .daemon) (fun _ _ _ => True) () v := by
  simp only [taskInit,obeys_bind,obeys_perform]
  refine ⟨trivial,?_⟩
  rintro (_ | main) _ rfl <;> simp [holdingRules]

/-! ### The invariant of every step -/

/-- What party `p` knows of itself is so: the clusters it holds are at it, and no other party took
them since.  A core shows its view in memory, and what it points to it holds, unless it is just
leaving it. -/
@[grind cases]
structure HoldLocal {C : Type} (m : Mem) (t : SystemTrace C) (loc : ℕ → Place) (p : Party)
    (v : Holding) : Prop where
  taken : ∀ a,v.taken = some a → loc a = .held p .taken ∧ taker a t = some p
  exited : ∀ a,v.exited = some a → loc a = .held p .exited ∧ m.toExit a = true
  built : ∀ a,v.built = some a → loc a = .held p .built
  shown : ∀ i,p = .core i →
    m.user i = v.user ∧ m.curCluster i = v.cur ∧ leavingCluster i t = v.leaving
  runs : v.user = true → v.cur.isSome ∧ v.taken = v.cur
  points : ∀ a,v.cur = some a → v.taken = some a ∨ v.exited = some a ∨ v.leaving = true

/-- Cluster `a` is at `loc a`. -/
structure Located {C : Type} (m : Mem) (t : SystemTrace C) (w : Party → Holding)
    (loc : ℕ → Place) : Prop where
  free : ∀ a,m.alloced a = false → loc a = .free
  listed : ∀ c,∀ a ∈ m.clusterList c,loc a = .listed c
  nodup : ∀ c,(m.clusterList c).Nodup
  parked : ∀ a,m.parked a = true → loc a = .parked
  count : ∀ a,parkings a t = takings a t + (m.parked a).toNat
  party : ∀ p,HoldLocal m t loc p (w p)

def HoldInv {C : Type} (m : Mem) (t : SystemTrace C) (w : Party → Holding) : Prop :=
  ∃ loc,Located m t w loc

section Steps

variable {C : Type} {m m' : Mem} {t t' : SystemTrace C} {w : Party → Holding} {p : Party}
  {v : Holding} {loc : ℕ → Place} {a : ℕ}

/-- Party `p` acts.  For the others only clusters matter that they hold. -/
theorem Located.act (loc' : ℕ → Place) (h : Located m t w loc)
    (hfree : ∀ b,m'.alloced b = false → loc' b = .free)
    (hlisted : ∀ c,∀ b ∈ m'.clusterList c,loc' b = .listed c)
    (hnodup : ∀ c,(m'.clusterList c).Nodup) (hparked : ∀ b,m'.parked b = true → loc' b = .parked)
    (hcount : ∀ b,parkings b t' = takings b t' + (m'.parked b).toNat)
    (hparty : ∀ q,HoldLocal m t loc q (w q) → HoldLocal m' t' loc' q (if q = p then v else w q)) :
    HoldInv m' t' (update w p v) := by
  refine ⟨loc',hfree,hlisted,hnodup,hparked,hcount,fun q => ?_⟩
  rw [update_apply]
  exact hparty q (h.party q)

theorem holdInv_pop (h : Located m t w loc) {c : ℕ} (ht : (w (.core c)).taken = none)
    {rest : List ℕ} (hl : m.clusterList c = a::rest) :
    HoldInv { m with
        clusterList := update m.clusterList c rest
        clusterKthread := update m.clusterKthread (m.id a) none }
      (.act (.core c) (.popCluster c) (some a)::t)
      (update w (.core c) { w (.core c) with taken := some a }) := by
  have ha : loc a = .listed c := h.listed c a (by simp [hl])
  have hnd : a ∉ rest ∧ rest.Nodup := by simpa [hl] using h.nodup c
  refine h.act (update loc a (.held (.core c) .taken)) ?_ ?_ ?_ ?_ h.count fun q hv => ?_
  · grind -linarith [h.free]
  · grind -linarith [h.listed]
  · grind -linarith [h.nodup]
  · grind -linarith [h.parked]
  · constructor <;> grind -linarith [leavingCluster,taker]

theorem holdInv_cas (h : Located m t w loc) (ht : (w p).taken = none) (a : ℕ) :
    HoldInv { m with parked := update m.parked a false }
      (.act p (.casParked a) (some (m.parked a))::t)
      (update w p { w p with taken := if some (m.parked a) = some true then some a else none }) := by
  have ha := h.parked a
  refine h.act (if m.parked a then update loc a (.held p .taken) else loc)
    ?_ ?_ h.nodup ?_ (fun b => ?_) fun q hv => ?_
  · grind -linarith [h.free]
  · grind -linarith [h.listed]
  · grind -linarith [h.parked]
  · have hb := h.count b
    cases hp : m.parked a <;> by_cases hba : b = a <;> simp_all [parkings,takings,Ne.symm]
    omega
  · constructor <;> grind -linarith [leavingCluster,taker]

theorem holdInv_alloc (h : Located m t w loc) (hfree : m.alloced a = false) :
    HoldInv (m.alloc a) (.act p .allocCluster (some a)::t)
      (update w p { w p with built := some a }) := by
  have ha := h.free a hfree
  have hclear : update m.parked a false = m.parked := by
    rw [update_eq_self_iff]
    grind -linarith [h.parked]
  unfold Mem.alloc
  rw [hclear]
  refine h.act (update loc a (.held p .built)) ?_ ?_ h.nodup ?_ h.count fun q hv => ?_
  · grind -linarith [h.free]
  · grind -linarith [h.listed]
  · grind -linarith [h.parked]
  · constructor <;> grind -linarith [leavingCluster,taker]

theorem holdInv_dealloc (h : Located m t w loc) {c : ℕ} (he : (w (.core c)).exited = some a) :
    HoldInv { m with alloced := update m.alloced a false }
      (.act (.core c) (.deallocCluster a) ()::t)
      (update w (.core c) { w (.core c) with exited := none, leaving := true }) := by
  have ha := (h.party _).exited a he
  refine h.act (update loc a .free) ?_ ?_ h.nodup ?_ h.count fun q hv => ?_
  · grind -linarith [h.free]
  · grind -linarith [h.listed]
  · grind -linarith [h.parked]
  · constructor <;> grind -linarith [leavingCluster,taker]

theorem holdInv_park (h : Located m t w loc) {c : ℕ} (ht : (w (.core c)).taken = some a)
    (hu : (w (.core c)).user = false) :
    HoldInv { m with parked := update m.parked a true }
      (.act (.core c) (.storeParked a true) ()::t)
      (update w (.core c) { w (.core c) with taken := none, leaving := true }) := by
  have ha := (h.party _).taken a ht
  refine h.act (update loc a .parked) ?_ ?_ h.nodup ?_ (fun b => ?_) fun q hv => ?_
  · grind -linarith [h.free]
  · grind -linarith [h.listed]
  · grind -linarith [h.parked]
  · have hfree : m.parked a = false := by grind -linarith [h.parked]
    have hb := h.count b
    by_cases hba : b = a <;> simp_all [parkings,takings,Ne.symm]
    omega
  · constructor <;> grind -linarith [leavingCluster,taker]

theorem holdInv_attach (h : Located m t w loc) (hbuilt : (w p).built = some a) (c : ℕ)
    {ck : ℤ → Option ℕ} :
    HoldInv { m with
        clusterList := update m.clusterList c (m.clusterList c ++ [a])
        clusterKthread := ck }
      (.act p (.attachCluster c a) ()::t) (update w p { w p with built := none }) := by
  have ha := (h.party p).built a hbuilt
  refine h.act (update loc a (.listed c)) ?_ ?_ ?_ ?_ h.count fun q hv => ?_
  · grind -linarith [h.free]
  · grind -linarith [h.listed]
  · intro c'
    have hna : a ∉ m.clusterList c := fun hmem => by grind -linarith [h.listed c a hmem]
    by_cases hc : c' = c
    · subst hc
      simpa [List.nodup_append] using ⟨h.nodup c',fun x hx hxa => hna (hxa ▸ hx)⟩
    · simpa [hc] using h.nodup c'
  · grind -linarith [h.parked]
  · constructor <;> grind -linarith [leavingCluster,taker]

theorem holdInv_exit (h : Located m t w loc) (ht : (w p).taken = some a)
    (hc : (w p).cur = some a) (hu : (w p).user = false) :
    HoldInv { m with toExit := update m.toExit a true } (.act p (.storeToExit a true) ()::t)
      (update w p { w p with taken := none, exited := some a }) := by
  have ha := (h.party p).taken a ht
  refine h.act (update loc a (.held p .exited)) ?_ ?_ h.nodup ?_ h.count fun q hv => ?_
  · grind -linarith [h.free]
  · grind -linarith [h.listed]
  · grind -linarith [h.parked]
  · constructor <;> grind -linarith [leavingCluster,taker]

theorem ite_self_view (q : Party) : (if q = p then w p else w q) = w q := by
  split <;> simp_all

theorem Located.stay (h : Located m t w loc) (halloc : m'.alloced = m.alloced)
    (hlist : m'.clusterList = m.clusterList) (hpark : m'.parked = m.parked)
    (hcount : ∀ b,parkings b t' = parkings b t ∧ takings b t' = takings b t)
    (hparty : ∀ q,HoldLocal m t loc q (w q) → HoldLocal m' t' loc q (if q = p then v else w q)) :
    HoldInv m' t' (update w p v) :=
  h.act loc (by rw [halloc]; exact h.free) (by rw [hlist]; exact h.listed)
    (by rw [hlist]; exact h.nodup) (by rw [hpark]; exact h.parked)
    (fun b => by rw [hpark,(hcount b).1,(hcount b).2]; exact h.count b)
    hparty

/-- Calls and returns, which the history does not show, change nothing. -/
theorem HoldInv.history (h : HoldInv m t w)
    (hleave : ∀ i,leavingCluster i t' = leavingCluster i t) (htaker : ∀ a,taker a t' = taker a t)
    (hcount : ∀ a,parkings a t' = parkings a t ∧ takings a t' = takings a t) : HoldInv m t' w := by
  obtain ⟨loc,h⟩ := h
  refine ⟨loc,h.free,h.listed,h.nodup,h.parked,fun a => ?_,fun p => ?_⟩
  · rw [(hcount a).1,(hcount a).2]
    exact h.count a
  · have hp := h.party p
    constructor <;> grind -linarith

theorem holdInv_popNone (h : Located m t w loc) {c : ℕ} (ht : (w (.core c)).taken = none) :
    HoldInv m (.act (.core c) (.popCluster c) none::t)
      (update w (.core c) { w (.core c) with taken := none }) := by
  refine h.stay rfl rfl rfl (fun _ => ⟨rfl,rfl⟩) fun q hv => ?_
  constructor <;> grind -linarith [leavingCluster,taker]

theorem holdInv_casNone (h : Located m t w loc) (ht : (w p).taken = none) :
    HoldInv m (.act p (.casParked a) none::t) (update w p
      { w p with taken := if (none : Option Bool) = some true then some a else none }) := by
  refine h.stay rfl rfl rfl (fun _ => by simp [parkings,takings]) fun q hv => ?_
  constructor <;> grind -linarith [leavingCluster,taker]

theorem holdInv_allocNone (h : Located m t w loc) :
    HoldInv m (.act p .allocCluster none::t) (update w p { w p with built := none }) := by
  refine h.stay rfl rfl rfl (fun _ => ⟨rfl,rfl⟩) fun q hv => ?_
  constructor <;> grind -linarith [leavingCluster,taker]

/-- The flags of a cluster that is being set up are clear already. -/
theorem holdInv_unpark (h : Located m t w loc) (hbuilt : (w p).built = some a) :
    HoldInv { m with parked := update m.parked a false }
      (.act p (.storeParked a false) ()::t) (update w p (w p)) := by
  have ha := (h.party p).built a hbuilt
  have hclear : update m.parked a false = m.parked := by
    rw [update_eq_self_iff]
    grind -linarith [h.parked]
  refine h.stay rfl rfl hclear (fun _ => by simp [parkings,takings]) fun q hv => ?_
  rw [ite_self_view]
  exact ⟨hv.taken,hv.exited,hv.built,hv.shown,hv.runs,hv.points⟩

theorem holdInv_unexit (h : Located m t w loc) (hbuilt : (w p).built = some a) :
    HoldInv { m with toExit := update m.toExit a false }
      (.act p (.storeToExit a false) ()::t) (update w p (w p)) := by
  have ha := (h.party p).built a hbuilt
  refine h.stay rfl rfl rfl (fun _ => ⟨rfl,rfl⟩) fun q hv => ?_
  constructor <;> grind -linarith [leavingCluster,taker]

theorem holdInv_storeCur (h : Located m t w loc) {c : ℕ} {x : Option ℕ}
    (ht : (w (.core c)).taken = x) (hu : (w (.core c)).user = false) :
    HoldInv { m with curCluster := update m.curCluster c x }
      (.act (.core c) (.storeCurCluster c x) ()::t) (update w (.core c)
        { w (.core c) with cur := x, exited := none, leaving := false }) := by
  refine h.stay rfl rfl rfl (fun _ => ⟨rfl,rfl⟩) fun q hv => ?_
  constructor <;> grind -linarith [leavingCluster,taker]

theorem holdInv_user (h : Located m t w loc) {c : ℕ} {b : Bool} {op : Op} {r : Res op}
    (hb : b = true → (w (.core c)).cur.isSome ∧ (w (.core c)).taken = (w (.core c)).cur)
    (hop : op = .enterUser c ∨ op = .leaveUser c) :
    HoldInv { m with user := update m.user c b } (.act (.core c) op r::t)
      (update w (.core c) { w (.core c) with user := b }) := by
  have hsame : (∀ i,leavingCluster i (.act (.core c) op r::t) = leavingCluster i t) ∧
      ∀ a,taker a (.act (.core c) op r::t) = taker a t := by
    obtain rfl | rfl := hop <;> exact ⟨fun _ => rfl,fun _ => rfl⟩
  refine h.stay rfl rfl rfl (fun _ => ?_) fun q hv => ?_
  · obtain rfl | rfl := hop <;> exact ⟨rfl,rfl⟩
  · constructor <;> grind -linarith

theorem holdInv_act (h : HoldInv m t w) {op : Op} {r : Res op}
    (hmay : (holdingRules p).may (w p) op) (hsem : sem op m r m') :
    ∃ g, (holdingRules p).next (w p) op r g ∧
      HoldInv m' (.act p op r::t) (update w p g) := by
  obtain ⟨loc,h⟩ := h
  have hp := h.party p
  cases op with
  | popCluster c =>
    obtain ⟨rfl,ht⟩ := hmay
    refine ⟨_,rfl,?_⟩
    simp only [sem] at hsem
    cases hl : m.clusterList c with
    | nil =>
      simp only [hl] at hsem
      obtain ⟨rfl,rfl⟩ := hsem
      exact holdInv_popNone h ht
    | cons a rest =>
      simp only [hl] at hsem
      obtain ⟨rfl,rfl⟩ := hsem
      exact holdInv_pop h ht hl
  | casParked a =>
    refine ⟨_,rfl,?_⟩
    simp only [sem] at hsem
    split at hsem <;> obtain ⟨rfl,rfl⟩ := hsem
    · exact holdInv_cas h hmay a
    · exact holdInv_casNone h hmay
  | storeParked a b =>
    obtain rfl := hsem
    refine ⟨_,rfl,?_⟩
    cases b with
    | true =>
      obtain ⟨⟨c,rfl⟩,ht,hu⟩ := hmay
      exact holdInv_park h ht hu
    | false => exact holdInv_unpark h hmay
  | storeToExit a b =>
    obtain rfl := hsem
    refine ⟨_,rfl,?_⟩
    cases b with
    | true =>
      obtain ⟨ht,hc,hu⟩ := hmay
      exact holdInv_exit h ht hc hu
    | false => exact holdInv_unexit h hmay
  | loadToExit a =>
    obtain ⟨rfl,rfl⟩ := hsem
    refine ⟨w p,⟨rfl,fun ha => (hp.exited a ha).2⟩,?_⟩
    refine h.stay rfl rfl rfl (fun _ => ⟨rfl,rfl⟩) fun q hv => ?_
    rw [ite_self_view]
    exact ⟨hv.taken,hv.exited,hv.built,hv.shown,hv.runs,hv.points⟩
  | attachCluster c a =>
    obtain rfl := hsem
    exact ⟨_,rfl,holdInv_attach h hmay c⟩
  | allocCluster =>
    refine ⟨_,rfl,?_⟩
    rcases hsem with ⟨rfl,rfl⟩ | ⟨a,-,hfree,rfl,rfl⟩
    · exact holdInv_allocNone h
    · exact holdInv_alloc h hfree
  | deallocCluster a =>
    obtain rfl := hsem
    obtain ⟨⟨c,rfl⟩,he⟩ := hmay
    exact ⟨_,rfl,holdInv_dealloc h he⟩
  | loadCurCluster c =>
    obtain rfl := hmay
    obtain ⟨rfl,rfl⟩ := hsem
    refine ⟨w (.core c),⟨(hp.shown c rfl).2.1,rfl⟩,?_⟩
    refine h.stay rfl rfl rfl (fun _ => ⟨rfl,rfl⟩) fun q hv => ?_
    rw [ite_self_view]
    exact ⟨hv.taken,hv.exited,hv.built,hv.shown,hv.runs,hv.points⟩
  | storeCurCluster c x =>
    obtain ⟨rfl,ht,hu⟩ := hmay
    obtain rfl := hsem
    exact ⟨_,rfl,holdInv_storeCur h ht hu⟩
  | enterUser c =>
    obtain ⟨rfl,hc⟩ := hmay
    obtain rfl := hsem
    exact ⟨_,rfl,holdInv_user h (fun _ => hc) (Or.inl rfl)⟩
  | leaveUser c =>
    obtain rfl := hmay
    obtain rfl := hsem
    exact ⟨_,rfl,holdInv_user h (by rintro ⟨⟩) (Or.inr rfl)⟩
  | bumpGen | kschedGen | loadNextTid | loadGen | loadLastGen | loadIdling | loadClusterPtr =>
    obtain ⟨-,rfl⟩ := hsem
    refine ⟨w p,rfl,h.stay rfl rfl rfl (fun _ => ⟨rfl,rfl⟩) fun q hv => ?_⟩
    rw [ite_self_view]
    exact ⟨hv.taken,hv.exited,hv.built,hv.shown,hv.runs,hv.points⟩
  | _ =>
    obtain rfl := hsem
    refine ⟨w p,rfl,h.stay rfl rfl rfl (fun _ => ⟨rfl,rfl⟩) fun q hv => ?_⟩
    rw [ite_self_view]
    exact ⟨hv.taken,hv.exited,hv.built,hv.shown,hv.runs,hv.points⟩

end Steps

/-! ### The programs -/

/-- What a core holds at each of its control points.  An exited cluster is still `cur`
until `csched` has let go of it. -/
def HoldRest (l : CoreLocal) (v : Holding) : Prop :=
  match l.ctl with
  | .boot => v.user = false ∧ v.taken = none ∧ v.cur = none
  | .user => v.cur.isSome ∧ v.taken = v.cur
  | .again | .tidLoop | .idleLoop | .casLoop _ => v.user = false ∧ v.taken = none ∧
      ∀ a, l.cur = some a → v.exited = some a
  | .exitLoop next => v.user = false ∧ v.taken = next ∧ ∀ a, l.cur = some a → v.exited = some a
  | .mwaitLoop => v.user = false ∧ v.taken = none ∧ v.cur = none
  | .halted => True

section Programs

variable {i : ℕ} {l : CoreLocal} {v : Holding} {next : Option ℕ}

theorem csched_holds (hu : v.user = false) (ht : v.taken = none)
    (hc : ∀ a, v.cur = some a → v.exited = some a) :
    (csched i).Obeys (holdingRules (.core i)) (fun _ l v => HoldRest l v) l v := by
  simpa [csched,holdingRules,HoldRest] using ⟨hu,ht,hc⟩

theorem cschedSwitch_holds (hu : v.user = false) (ht : v.taken = next)
    (hc : next = none → l.cur = none) :
    (cschedSwitch i next).Obeys (holdingRules (.core i)) (fun _ l v => HoldRest l v) l v := by
  cases next with
  | some n => simp [cschedSwitch,goto,holdingRules,HoldRest,ht,hu]
  | none => simp [cschedSwitch,goto,HoldRest,ht,hu,hc rfl]

/-- Only a cluster that has exited is still `cur` here, and its flag says so. -/
theorem cschedHaveNext_holds (hu : v.user = false) (ht : v.taken = next)
    (hc : ∀ a, l.cur = some a → v.exited = some a) :
    (cschedHaveNext i next).Obeys (holdingRules (.core i)) (fun _ l v => HoldRest l v) l v := by
  simp only [cschedHaveNext,obeys_bind,obeys_read]
  cases hcur : l.cur with
  | none => exact cschedSwitch_holds hu ht fun _ => hcur
  | some c =>
    simp only [goto,obeys_bind,obeys_perform,obeys_ite,obeys_update]
    refine ⟨trivial,?_⟩
    rintro b _ ⟨rfl,hb⟩
    exact ⟨fun _ => ⟨hu,ht,hc⟩,fun hf => absurd (hb (hc c hcur)) hf⟩

theorem cschedAgain_holds (hu : v.user = false) (ht : v.taken = none)
    (hc : ∀ a, l.cur = some a → v.exited = some a) :
    (cschedAgain i).Obeys (holdingRules (.core i)) (fun _ l v => HoldRest l v) l v := by
  simp only [cschedAgain,goto,obeys_bind,obeys_perform,obeys_ite,obeys_update,holdingRules,true_and,
    forall_eq]
  refine fun _ _ => ⟨fun _ => ⟨hu,ht,hc⟩,fun _ => ⟨ht,fun next => ?_⟩⟩
  exact cschedHaveNext_holds hu rfl hc

theorem cschedTid_holds (hu : v.user = false) (ht : v.taken = none)
    (hc : ∀ a, l.cur = some a → v.exited = some a) :
    (cschedTid i).Obeys (holdingRules (.core i)) (fun _ l v => HoldRest l v) l v := by
  simp only [cschedTid,goto,obeys_bind,obeys_perform,obeys_ite,obeys_tell,obeys_update,holdingRules,
    true_and,forall_eq]
  refine fun _ => ⟨fun _ _ _ _ => ⟨hu,ht,hc⟩,fun _ _ _ => ?_⟩
  rintro (_ | next)
  · trivial
  · exact ⟨hu,ht,hc⟩

theorem cschedIdle_holds (h : HoldRest l v) (hctl : l.ctl = .idleLoop) :
    (cschedIdle i).Obeys (holdingRules (.core i)) (fun _ l v => HoldRest l v) l v := by
  simp only [cschedIdle,goto,obeys_bind,obeys_perform,obeys_ite,obeys_update,obeys_pure,holdingRules,
    true_and,forall_eq]
  refine fun _ _ => ⟨fun _ => ?_,fun _ => h⟩
  rwa [HoldRest,hctl] at h

theorem cschedCas_holds {n : ℕ} (h : HoldRest l v) (hctl : l.ctl = .casLoop n) :
    (cschedCas i n).Obeys (holdingRules (.core i)) (fun _ l v => HoldRest l v) l v := by
  rw [HoldRest,hctl] at h
  obtain ⟨hu,ht,hc⟩ := h
  simp only [cschedCas,obeys_bind,obeys_perform]
  refine ⟨ht,?_⟩
  rintro r _ rfl
  rcases r with _ | _ | _
  · trivial
  · simpa [HoldRest,hctl] using ⟨hu,hc⟩
  · simp only [obeys_bind,obeys_perform,obeys_tell,holdingRules,true_and,forall_eq]
    exact fun _ _ => cschedHaveNext_holds hu rfl hc

theorem cschedExit_holds (h : HoldRest l v) (hctl : l.ctl = .exitLoop next) :
    (cschedExit i next).Obeys (holdingRules (.core i)) (fun _ l v => HoldRest l v) l v := by
  have hrest := h
  rw [HoldRest,hctl] at h
  obtain ⟨hu,ht,hc⟩ := h
  simp only [cschedExit,obeys_bind,obeys_read]
  cases hcur : l.cur with
  | none => exact cschedSwitch_holds hu ht fun _ => hcur
  | some c =>
    simp only [obeys_bind,obeys_perform,obeys_ite,obeys_pure,obeys_tell,obeys_update]
    refine ⟨trivial,?_⟩
    rintro b _ rfl
    refine ⟨fun _ => hrest,fun _ => ⟨⟨⟨i,rfl⟩,hc c hcur⟩,?_⟩⟩
    rintro _ _ rfl
    exact cschedSwitch_holds hu ht fun _ => rfl

theorem mwaitRound_holds (h : HoldRest l v) (hctl : l.ctl = .mwaitLoop) :
    (mwaitRound i).Obeys (holdingRules (.core i)) (fun _ l v => HoldRest l v) l v := by
  have hrest := h
  rw [HoldRest,hctl] at h
  obtain ⟨hu,ht,hc⟩ := h
  simp only [mwaitRound,obeys_bind,obeys_perform,obeys_ite,obeys_tell,obeys_pure,holdingRules,
    true_and,forall_eq]
  refine fun _ _ => ⟨fun _ _ => ?_,fun _ => hrest⟩
  exact csched_holds hu ht fun a ha => by simp [hc] at ha

theorem clusterYield_holds (h : v.cur = none → v.user = false ∧ v.taken = none)
    (ht : v.taken = v.cur) :
    (clusterYield i).Obeys (holdingRules (.core i)) (fun _ l v => HoldRest l v) l v := by
  simp only [clusterYield,obeys_bind,obeys_perform]
  refine ⟨rfl,?_⟩
  rintro _ v ⟨rfl,rfl⟩
  cases hc : v.cur with
  | none => exact csched_holds (h hc).1 (h hc).2 fun a ha => by simp [hc] at ha
  | some cur =>
    simp only [yield,obeys_bind,obeys_tell,holdingRules,true_and,forall_eq,ht,hc,if_true]
    exact fun _ _ => ⟨⟨⟨i,rfl⟩,trivial⟩,fun _ _ _ => csched_holds rfl rfl fun a ha => by simp at ha⟩

theorem clusterMwait_holds (ht : v.taken = v.cur) :
    (clusterMwait i).Obeys (holdingRules (.core i)) (fun _ l v => HoldRest l v) l v := by
  simp only [clusterMwait,obeys_bind,obeys_perform]
  refine ⟨rfl,?_⟩
  rintro _ v ⟨rfl,rfl⟩
  cases hc : v.cur with
  | none => exact trivial
  | some cur => simp [mwait,goto,holdingRules,HoldRest,ht,hc]

theorem clusterExit_holds (ht : v.taken = v.cur) :
    (clusterExit i).Obeys (holdingRules (.core i)) (fun _ l v => HoldRest l v) l v := by
  simp only [clusterExit,obeys_bind,obeys_perform]
  refine ⟨rfl,?_⟩
  rintro _ v ⟨rfl,rfl⟩
  cases hc : v.cur with
  | none => exact trivial
  | some cur =>
    simp only [obeys_bind,obeys_tell,holdingRules,true_and,forall_eq,ht,hc,if_true]
    exact fun _ _ => csched_holds rfl rfl fun a ha => ha

theorem clusterSpawn_holds (h : HoldRest l v) (hctl : l.ctl = .user) (pref : ℕ) (inMask : Bool) :
    (clusterSpawn pref inMask).Obeys (holdingRules (.core i)) (fun _ l v => HoldRest l v) l v := by
  simp only [clusterSpawn,obeys_bind,obeys_ite,obeys_perform,obeys_pure]
  refine ⟨fun _ => ⟨trivial,?_⟩,fun _ => h⟩
  rintro (_ | newc) _ rfl
  · exact trivial
  · simpa [holdingRules,HoldRest,hctl] using h

theorem coreBody_holds (h : HoldRest l v) {c : CoreCall} (hc : c.allowed l) :
    (coreBody i c).Obeys (holdingRules (.core i)) (fun _ l v => HoldRest l v) l v := by
  have hrest := h
  cases c with
  | step =>
    simp only [coreBody,cschedStep,obeys_bind,obeys_read]
    rw [HoldRest] at h
    cases hctl : l.ctl <;> rw [hctl] at h
    case boot => exact clusterYield_holds (fun _ => ⟨h.1,h.2.1⟩) (h.2.1.trans h.2.2.symm)
    case user => exact absurd hctl hc.1
    case again => exact cschedAgain_holds h.1 h.2.1 h.2.2
    case tidLoop => exact cschedTid_holds h.1 h.2.1 h.2.2
    case idleLoop => exact cschedIdle_holds hrest hctl
    case casLoop n => exact cschedCas_holds hrest hctl
    case exitLoop next => exact cschedExit_holds hrest hctl
    case mwaitLoop => exact mwaitRound_holds hrest hctl
    case halted => exact absurd hctl hc.2
  | yield =>
    rw [HoldRest,show l.ctl = .user from hc] at h
    exact clusterYield_holds (fun hn => by simp [hn] at h) h.2
  | mwait =>
    rw [HoldRest,show l.ctl = .user from hc] at h
    exact clusterMwait_holds h.2
  | exit =>
    rw [HoldRest,show l.ctl = .user from hc] at h
    exact clusterExit_holds h.2
  | spawn pref inMask => exact clusterSpawn_holds h hc pref inMask

end Programs

/-! ### Every run -/

/-- An iokernel that asks any core for any thread at any time, the cores and the daemon.  A core that
is asked for an id without a cluster, or whose cluster is freed while the core waits for it, halts. -/
abbrev requestSystem :=
  system (S:=Unit) (fun r : ℕ × ℤ => kschedRun r.1 r.2) fun _ _ => True

theorem kschedRun_holds (core : ℕ) (tid : ℤ) (v : Holding) :
    (kschedRun core tid).Obeys (holdingRules .iok) (fun _ _ _ => True) () v := by
  simp [kschedRun,holdingRules]

def holdingOutline : Outline requestSystem fun _ => Holding where
  rules := holdingRules
  inv m t w := HoldInv m t w
  rest
    | .iok | .daemon => fun _ _ => True
    | .core _ => HoldRest
  post
    | .iok | .daemon => fun _ _ _ _ => True
    | .core _ => fun _ _ => HoldRest
  start := by
    intro m t w i s c hinv hrest hall
    refine ⟨w i,?_,?_⟩
    · rw [update_eq_self]
      exact hinv.history (fun _ => rfl) (fun _ => rfl) fun _ => ⟨rfl,rfl⟩
    · cases i with
      | iok => exact kschedRun_holds c.1 c.2 _
      | daemon => exact taskInit_holds c
      | core i => exact coreBody_holds hrest hall
  act := fun hinv hmay hsem => holdInv_act hinv hmay hsem
  done := by
    intro m t w i s c u hinv hpost
    refine ⟨w i,?_,?_⟩
    · rw [update_eq_self]
      exact hinv.history (fun _ => rfl) (fun _ => rfl) fun _ => ⟨rfl,rfl⟩
    · cases i with
      | iok | daemon => trivial
      | core i => exact hpost

theorem holding_initial : holdingOutline.Covers (systemStart ()) := by
  refine ⟨fun _ => ⟨none,none,none,none,false,false⟩,⟨fun _ => .free,?_,?_,?_,?_,?_,?_⟩,?_⟩
  · exact fun _ _ => rfl
  · exact fun _ _ ha => absurd ha List.not_mem_nil
  · exact fun _ => List.nodup_nil
  · exact fun _ ha => by simp [systemStart,Mem.initial] at ha
  · exact fun _ => rfl
  · exact fun _ => ⟨by simp,by simp,by simp,fun _ _ => ⟨rfl,rfl,rfl⟩,by simp,by simp⟩
  · rintro (_ | _ | i)
    · trivial
    · trivial
    · exact ⟨rfl,rfl,rfl⟩

section Located

variable {C : Type} {m : Mem} {t : SystemTrace C} {w : Party → Holding} {loc : ℕ → Place}

theorem Located.same_cluster (h : Located m t w loc) {i j a : ℕ} (hi : m.curCluster i = some a)
    (hj : m.curCluster j = some a) :
    i = j ∨ leavingCluster i t = true ∨ leavingCluster j t = true := by
  have hheld : ∀ k,m.curCluster k = some a →
      leavingCluster k t = true ∨ ∃ r,loc a = .held (.core k) r := by
    intro k hk
    have hcore := h.party (.core k)
    obtain ⟨-,hcur,hleave⟩ := hcore.shown k rfl
    rcases hcore.points a (hcur.symm.trans hk) with ht | he | hl
    · exact .inr ⟨_,(hcore.taken a ht).1⟩
    · exact .inr ⟨_,(hcore.exited a he).1⟩
    · exact .inl (hleave.trans hl)
  grind -linarith

theorem Located.running (h : Located m t w loc) {i : ℕ} (hu : m.user i = true) :
    ∃ a,m.curCluster i = some a ∧ (w (.core i)).taken = some a := by
  have hcore := h.party (.core i)
  obtain ⟨huser,hcur,-⟩ := hcore.shown i rfl
  obtain ⟨hs,ht⟩ := hcore.runs (huser.symm.trans hu)
  obtain ⟨a,ha⟩ := Option.isSome_iff_exists.mp hs
  exact ⟨a,hcur.trans ha,ht.trans ha⟩

end Located

/-- A cluster executes on one core only, the one that took it last, and then its memory is not free
and it is neither listed nor parked.  Two cores point to one cluster only while one of them has
parked or freed the cluster it points to, and each parking of a cluster is taken by one
compare-and-swap. -/
theorem cluster_exclusive {cfg : SystemConfig Unit (ℕ × ℤ)}
    (hr : requestSystem.Reach (systemStart ()) cfg) :
    (∀ i, cfg.mem.user i = true → ∃ a, cfg.mem.curCluster i = some a ∧
      taker a cfg.trace = some (.core i) ∧ cfg.mem.alloced a = true ∧ cfg.mem.parked a = false ∧
      (∀ c, a ∉ cfg.mem.clusterList c) ∧
      ∀ j, cfg.mem.user j = true → cfg.mem.curCluster j = some a → j = i) ∧
    (∀ i j a, cfg.mem.curCluster i = some a → cfg.mem.curCluster j = some a →
      i = j ∨ leavingCluster i cfg.trace = true ∨ leavingCluster j cfg.trace = true) ∧
    (∀ c c' a, a ∈ cfg.mem.clusterList c → a ∈ cfg.mem.clusterList c' → c = c') ∧
    (∀ c, (cfg.mem.clusterList c).Nodup ∧ ∀ a ∈ cfg.mem.clusterList c, cfg.mem.alloced a = true) ∧
    ∀ a, parkings a cfg.trace = takings a cfg.trace + (cfg.mem.parked a).toNat := by
  obtain ⟨w,⟨loc,h⟩,-⟩ := Outline.covers holding_initial hr
  refine ⟨fun i hu => ?_,fun i j a hi hj => h.same_cluster hi hj,fun c c' a hc hc' => ?_,
    fun c => ⟨h.nodup c,fun a ha => ?_⟩,h.count⟩
  · obtain ⟨a,ha,ht⟩ := h.running hu
    obtain ⟨hloc,htaker⟩ := (h.party _).taken a ht
    refine ⟨a,ha,htaker,?_,?_,fun c hc => ?_,fun j hj hja => ?_⟩
    · grind -linarith [h.free a]
    · grind -linarith [h.parked a]
    · grind -linarith [h.listed c a hc]
    · obtain ⟨b,hb,hbt⟩ := h.running hj
      have hlocj := ((h.party _).taken b hbt).1
      grind -linarith
  · grind -linarith [h.listed c a hc,h.listed c' a hc']
  · grind -linarith [h.listed c a ha,h.free a]

/-- The cluster of core 0 has exited and its memory is used for a new cluster, which executes on
core 1.  Core 0 still points to it. -/
theorem cluster_exclusive_reused : ∃ cfg : SystemConfig Unit (ℕ × ℤ),
    requestSystem.Reach (systemStart ()) cfg ∧ cfg.mem.user 1 = true ∧
      cfg.mem.curCluster 0 = some 9 ∧ taker 9 cfg.trace = some (.core 1) ∧
      cfg.mem.alloced 9 = true ∧
      (leavingCluster 0 cfg.trace = true ∨ leavingCluster 1 cfg.trace = true) := by
  have hrun : (requestSystem.play exec (Move.runs [
      ⟨.daemon,(0 : ℕ),6,9⟩,⟨.core 0,.step,6,0⟩,⟨.core 0,.step,12,0⟩,⟨.core 0,.exit,7,0⟩,
      ⟨.core 0,.step,9,0⟩,⟨.core 0,.step,10,0⟩,⟨.daemon,(1 : ℕ),6,9⟩,⟨.core 1,.step,6,0⟩,
      ⟨.core 1,.step,12,0⟩]) (systemStart ())).map (fun c =>
      (c.mem.curCluster 0,c.mem.curCluster 1,c.mem.user 1)) = some (some 9,some 9,true) := by
    decide +kernel
  obtain ⟨cfg,hreach,hval⟩ := Threads.exists_reach exec_sem hrun
  obtain ⟨h0,h1,hu⟩ : _ ∧ _ ∧ _ := by simpa using hval
  have h := cluster_exclusive hreach
  obtain ⟨a,ha,ht,halloc,-⟩ := h.1 1 hu
  obtain rfl := Option.some.inj (ha.symm.trans h1)
  exact ⟨cfg,hreach,hu,h0,ht,halloc,(h.2.1 0 1 9 h0 h1).resolve_left (by decide)⟩

/-- Core 0 has parked cluster 1 in `cluster_yield` and still points to it when core 1,
asked for that cluster, has switched to it. -/
theorem curCluster_shared : ∃ cfg : SystemConfig Unit (ℕ × ℤ),
    requestSystem.Reach (systemStart ()) cfg ∧ ∃ a, cfg.mem.clusterPtr 1 = some a ∧
      cfg.mem.curCluster 0 = some a ∧ cfg.mem.curCluster 1 = some a ∧ cfg.mem.user 1 = true := by
  have hrun : (requestSystem.play exec (Move.runs [
      ⟨.daemon,(0 : ℕ),6,9⟩,⟨.core 0,.step,6,0⟩,⟨.core 0,.step,12,0⟩,⟨.core 0,.yield,4,0⟩,
      ⟨.iok,((1,1) : ℕ × ℤ),4,0⟩,⟨.core 1,.step,6,0⟩,⟨.core 1,.step,6,0⟩,⟨.core 1,.step,8,0⟩,
      ⟨.core 1,.step,12,0⟩]) (systemStart ())).map (fun c =>
      (c.mem.clusterPtr 1,c.mem.curCluster 0,c.mem.curCluster 1,c.mem.user 1)) =
      some (some 9,some 9,some 9,true) := by
    decide +kernel
  obtain ⟨cfg,hreach,hval⟩ := Threads.exists_reach exec_sem hrun
  exact ⟨cfg,hreach,9,by simpa using hval⟩

end Vessel
