import Vessel.Csched
import Vessel.SchedInvariant

/-! Requests from the iokernel to a core.
The iokernel counts the requests of a core in `gen`, the core counts what it has acted
on in `last_gen`.  The outline ties both words to one unbounded count and follows the
`idling` flag of the core along. -/
namespace Vessel

open Prog Counter Function

/-! ### What a history says about one core -/

/-- A request is issued by the store of `gen` and has the `next_tid` stored last; it is acted on by
the store of `last_gen`.  `looked` is the entry of `cluster_id2cluster_ptr` that the core read last,
`took` the cluster that it has taken and not switched to yet, with the id that it found it by (0 if
it comes from the core's own list). -/
structure Hist where
  staged : ℤ
  issued : List (BitVec 32 × ℤ)
  looked : Option (ℤ × ℕ)
  took : Option (ℤ × ℕ)
  acted : List (BitVec 32 × ℤ)
  idling : Bool

/-- The thread id that a core has acted on: the id of the cluster it has taken, or 0. -/
def tookId (took : Option (ℤ × ℕ)) : ℤ := (took.map Prod.fst).getD 0

/-- Party `p` has accessed memory. -/
def Hist.record (c : ℕ) (h : Hist) (p : Party) : (op : Op) → Res op → Hist
  | .storeNextTid c' tid, _ => if c' = c then { h with staged := tid } else h
  | .storeGen c' g, _ => if c' = c then { h with issued := h.issued++[(g,h.staged)] } else h
  | .loadClusterPtr tid, r => if p = .core c then { h with looked := r.map (tid,·) } else h
  | .casParked a, r => if p = .core c then
      { h with took := if r = some true then h.looked.filter (·.2 = a) else h.took } else h
  | .popCluster c', r => if c' = c then { h with took := r.map (0,·) } else h
  | .storeCurCluster c' _, _ => if c' = c then { h with took := none } else h
  | .storeLastGen c' g, _ =>
    if c' = c then { h with acted := h.acted++[(g,tookId h.took)] } else h
  | .storeIdling c' b, _ => if c' = c then { h with idling := b } else h
  | _, _ => h

section Trace

variable {C : Type}

def history (c : ℕ) : SystemTrace C → Hist
  | [] => ⟨0,[],none,none,[],false⟩
  | .act p op r::t => (history c t).record c p op r
  | _::t => history c t

/-- Every local pop that found a cluster found the core's idle flag cleared. -/
def popsAwake : SystemTrace C → Bool
  | [] => true
  | .act _ (.popCluster c) r::t => (r.isNone || !(history c t).idling) && popsAwake t
  | _::t => popsAwake t

/-- The iokernel has just taken core `c` for idle: it polled the flag as set, or it left
the interrupt out. -/
def takenForIdle (c : ℕ) : SystemTrace C → Bool
  | .act .iok (.loadIdling c') r::_ => c' == c && r
  | .act .iok (.skipIntr c') _::_ => c' == c
  | _ => false

end Trace

/-! ### Logical states -/

/-- How far the iokernel has got with the next request of a core. -/
inductive Phase
  | quiet
  | bumped
  | staged (tid : ℤ)
  | out
  deriving DecidableEq

def Phase.bump : Phase → ℕ
  | .quiet | .out => 0
  | .bumped | .staged _ => 1

/-- `n` requests issued; `known` while the core is known to be idle. -/
structure IokCore where
  n : ℕ
  phase : Phase
  known : Bool

/-- `m` requests acted on, `seen` once the next one has been noticed, `tid` what was read
of it; `ok` as long as every local pop was made with the idle flag cleared. -/
structure CoreView where
  m : ℕ
  seen : Bool
  tid : Option ℤ
  looked : Option (ℤ × ℕ)
  took : Option (ℤ × ℕ)
  idling : Bool
  user : Bool
  cur : Option ℕ
  ok : Bool

@[reducible] def HandshakeView : Party → Type
  | .iok => ℕ → IokCore
  | .daemon => Unit
  | .core _ => CoreView

def iokRules : Rules (ℕ → IokCore) Op Res where
  may v
    | .bumpGen c => (v c).phase = .quiet
    | .storeNextTid c _ => (v c).phase = .bumped
    | .storeGen c g => (∃ tid, (v c).phase = .staged tid) ∧ g = word ((v c).n+1)
    | .skipIntr c => (v c).known = true
    | .kschedGen _ | .loadLastGen _ | .loadIdling _ | .storeToSteal _ _ | .enqueueIntr _
    | .sendIntrs | .rxqPending _ | .hwqBusy _ _ | .measureDelay _ | .hwqDelay _ => True
    | _ => False
  next v
    | .bumpGen c, r, v' => r = word ((v c).n+1) ∧
        v' = update v c ⟨(v c).n,.bumped,false⟩
    | .storeNextTid c tid, _, v' => v' = update v c { v c with phase := .staged tid }
    | .storeGen c _, _, v' => v' = update v c ⟨(v c).n+1,.out,false⟩
    | .kschedGen c, r, v' => r = word ((v c).n+(v c).phase.bump) ∧ v' = v
    | .loadLastGen c, r, v' =>
      if (v c).phase = .out then
        r = word (v c).n ∧ v' = update v c { v c with phase := .quiet } ∨
          r ≠ word (v c).n ∧ v' = v
      else v' = v
    | .loadIdling c, r, v' =>
      if (v c).phase = .quiet ∧ r = true then v' = update v c { v c with known := true }
      else v' = v
    | _, _, v' => v' = v

section IokRules

variable {v v' : ℕ → IokCore} {c : ℕ}

theorem iokRules_acknowledged {r : BitVec 32} (hp : (v c).phase = .out) :
    iokRules.next v (.loadLastGen c) r v' ↔
      r = word (v c).n ∧ v' = update v c { v c with phase := .quiet } ∨
        r ≠ word (v c).n ∧ v' = v :=
  iff_of_eq (if_pos hp)

theorem iokRules_notOut {r : BitVec 32} (hp : (v c).phase ≠ .out) :
    iokRules.next v (.loadLastGen c) r v' ↔ v' = v :=
  iff_of_eq (if_neg hp)

theorem iokRules_foundIdle {r : Bool} (hp : (v c).phase = .quiet ∧ r = true) :
    iokRules.next v (.loadIdling c) r v' ↔
      v' = update v c ⟨(v c).n,(v c).phase,true⟩ :=
  iff_of_eq (if_pos hp)

theorem iokRules_notIdle {r : Bool} (hp : ¬((v c).phase = .quiet ∧ r = true)) :
    iokRules.next v (.loadIdling c) r v' ↔ v' = v :=
  iff_of_eq (if_neg hp)

end IokRules

/-- A core reads `next_tid` and clears its idle flag only for a request it has noticed, and takes
another cluster only after it has switched to the last one. -/
def coreRules (i : ℕ) : Rules CoreView Op Res where
  may v
    | .loadGen c | .loadLastGen c | .leaveUser c | .loadCurCluster c => c = i
    | .popCluster c => c = i ∧ v.took = none
    | .casParked _ => v.took = none
    | .storeCurCluster c x => c = i ∧ v.took.map Prod.snd = x
    | .loadNextTid c => c = i ∧ v.seen = true
    | .storeLastGen c g => c = i ∧ v.seen = true ∧ v.tid = some (tookId v.took) ∧ g = word (v.m+1)
    | .storeIdling c b => c = i ∧ (if b then v.user = false else v.seen = true)
    | .enterUser c => c = i ∧ (v.ok = true → v.idling = false)
    | .attachCluster _ _ | .parkCluster _ | .storeParked _ _ | .loadToExit _ | .storeToExit _ _
    | .loadClusterPtr _ | .allocCluster | .deallocCluster _ | .attachTask _ | .deattachTask _ => True
    | _ => False
  next v
    | .loadGen _, r, v' => v.seen = false ∧ r = word v.m ∧ v' = v ∨
        r = word (v.m+1) ∧ v' = { v with seen := true }
    | .loadLastGen _, r, v' => r = word v.m ∧ v' = v
    | .loadNextTid _, r, v' => v' = { v with tid := some r }
    | .storeLastGen _ _, _, v' => v' = { v with m := v.m+1, seen := false, tid := none }
    | .storeIdling _ b, _, v' => v' = { v with idling := b }
    | .enterUser _, _, v' => v' = { v with user := true }
    | .leaveUser _, _, v' => v' = { v with user := false }
    | .loadCurCluster _, r, v' => r = v.cur ∧ v' = v
    | .storeCurCluster _ x, _, v' => v' = { v with cur := x, took := none }
    | .loadClusterPtr tid, r, v' => v' = { v with looked := r.map (tid,·) }
    | .casParked a, r, v' =>
      v' = { v with took := if r = some true then v.looked.filter (·.2 = a) else v.took }
    | .popCluster _, r, v' =>
      v' = { v with ok := v.ok && (r.isNone || !v.idling), took := r.map (0,·) }
    | _, _, v' => v' = v

/-- The daemon has nothing to do with requests. -/
def daemonRules : Rules Unit Op Res where
  may _
    | .attachCluster _ _ | .storeParked _ _ | .storeToExit _ _ | .allocCluster
    | .attachTask _ => True
    | _ => False
  next _ _ _ _ := True

def handshakeRules : (i : Party) → Rules (HandshakeView i) Op Res
  | .iok => iokRules
  | .daemon => daemonRules
  | .core i => coreRules i

/-- What holds of a core at each of its control points. -/
def CoreRest (l : CoreLocal) (w : CoreView) : Prop :=
  match l.ctl with
  | .boot => w.user = false ∧ w.took = none ∧ w.cur = none
  | .user => w.took = none ∧ w.cur.isSome ∧ (w.ok = true → w.idling = false)
  | .again => w.user = false ∧ w.took = none ∧
      (l.cur.isSome → w.cur.isSome ∧ (w.ok = true → w.idling = false))
  | .tidLoop => w.user = false ∧ w.took = none ∧ w.seen = true
  | .idleLoop | .mwaitLoop => w.user = false ∧ w.took = none
  | .casLoop n => w.user = false ∧ w.took = none ∧ w.seen = true ∧ w.idling = false ∧
      ∃ tid, w.tid = some tid ∧ w.looked = some (tid,n)
  | .exitLoop next => w.user = false ∧ w.took.map Prod.snd = next ∧
      (next.isSome → w.ok = true → w.idling = false)
  | .halted => True

theorem clusterSpawn_obeys {i : ℕ} {l : CoreLocal} {w : CoreView} (h : CoreRest l w) (pref : ℕ)
    (inMask : Bool) :
    (clusterSpawn pref inMask).Obeys (coreRules i) (fun _ l w => CoreRest l w) l w := by
  simp only [clusterSpawn,obeys_bind,obeys_ite,obeys_perform,obeys_pure]
  refine ⟨fun _ => ⟨trivial,?_⟩,fun _ => h⟩
  rintro (_ | newc) _ rfl
  · exact trivial
  · simpa [coreRules] using h

theorem taskInit_obeys (pref : ℕ) :
    (taskInit pref).Obeys daemonRules (fun _ _ _ => True) () () := by
  simp only [taskInit,obeys_bind,obeys_perform]
  refine ⟨trivial,?_⟩
  rintro (_ | main) _ _ <;> simp [daemonRules]

/-- What shared memory holds about one core. -/
structure Snap where
  gens : BitVec 32
  conn : CoreConn
  user : Bool
  cur : Option ℕ

def snap (c : ℕ) (m : Mem) : Snap := ⟨m.kschedGens c,m.conn c,m.user c,m.curCluster c⟩

/-- Memory and history of one core against the two logical states. -/
structure CoreInv (k : Snap) (h : Hist) (v : IokCore) (w : CoreView) : Prop where
  gens : k.gens = word (v.n+v.phase.bump)
  gen : k.conn.gen = word v.n
  last : k.conn.lastGen = word w.m
  count : v.n = w.m ∨ v.n = w.m+1 ∧ v.phase = .out
  seen : w.seen = true → v.n = w.m+1
  staged : k.conn.nextTid = h.staged
  issued_len : h.issued.length = v.n
  issued_gen : ∀ j x, h.issued[j]? = some x → x.1 = word (j+1)
  acted : h.acted = h.issued.take w.m
  outstanding : v.n = w.m+1 → ∃ g, h.issued[w.m]? = some (g,h.staged)
  tid : ∀ x, w.tid = some x → w.seen = true ∧ x = h.staged
  looked : h.looked = w.looked
  took : h.took = w.took
  idling : k.conn.idling = w.idling
  idling_hist : h.idling = w.idling
  user : k.user = w.user
  cur : k.cur = w.cur
  awake : w.ok = true → w.idling = true → w.user = false
  known : v.known = true → v.phase = .quiet ∧ w.idling = true

/-! ### One step of one core -/

section Steps

variable {k : Snap} {h : Hist} {v : IokCore} {w : CoreView}

/-- Only a request that has been issued can be outstanding. -/
theorem CoreInv.idle_count (i : CoreInv k h v w) (hp : v.phase ≠ .out) : v.n = w.m := by
  rcases i.count with hn | ⟨-,ho⟩
  · exact hn
  · exact absurd ho hp

theorem CoreInv.not_seen (i : CoreInv k h v w) (hp : v.phase ≠ .out) : w.seen ≠ true := by
  intro hs
  have h1 := i.seen hs
  have h2 := i.idle_count hp
  omega

theorem CoreInv.seen_out (i : CoreInv k h v w) (hs : w.seen = true) : v.phase = .out := by
  by_contra hp
  exact i.not_seen hp hs

theorem coreInv_bumpGen (i : CoreInv k h v w) (hp : v.phase = .quiet) :
    CoreInv { k with gens := k.gens + 1 } h ⟨v.n,.bumped,false⟩ w where
  __ := i
  gens := by rw [i.gens,hp,word_add_one]; rfl
  count := Or.inl (i.idle_count (by simp [hp]))
  known hk := by simp at hk

theorem coreInv_storeNextTid (i : CoreInv k h v w) (hp : v.phase = .bumped) (tid : ℤ) :
    CoreInv { k with conn := { k.conn with nextTid := tid } } { h with staged := tid }
      { v with phase := .staged tid } w := by
  have hn := i.idle_count (by simp [hp])
  exact {
    __ := i
    gens := by rw [i.gens,hp]; rfl
    count := Or.inl hn
    staged := rfl
    outstanding := fun ho => by dsimp only at ho; omega
    tid := fun x hx => absurd (i.tid x hx).1 (i.not_seen (by simp [hp]))
    known := fun hk => by simpa [hp] using (i.known hk).1 }

theorem coreInv_storeGen (i : CoreInv k h v w) {tid : ℤ} (hp : v.phase = .staged tid) :
    CoreInv { k with conn := { k.conn with gen := word (v.n+1) } }
      { h with issued := h.issued ++ [(word (v.n+1),h.staged)] } ⟨v.n+1,.out,false⟩ w := by
  have hn := i.idle_count (by simp [hp])
  have hlen := i.issued_len
  exact {
    __ := i
    gens := by rw [i.gens,hp]; rfl
    gen := rfl
    count := Or.inr ⟨by rw [hn],rfl⟩
    seen := fun hs => absurd hs (i.not_seen (by simp [hp]))
    issued_len := by simp [hlen]
    issued_gen := fun j x hx => by
      rw [List.getElem?_append] at hx
      split at hx
      · exact i.issued_gen j x hx
      · rename_i hj
        rw [List.getElem?_singleton] at hx
        split at hx
        · obtain rfl := Option.some.inj hx
          rw [show j = v.n by omega]
        · simp at hx
    acted := by
      rw [List.take_append_of_le_length (by omega)]
      exact i.acted
    outstanding := fun _ => ⟨word (v.n+1),by
      rw [List.getElem?_append_right (by omega),hlen,hn]
      simp⟩
    known := fun hk => by simp at hk }

theorem coreInv_acknowledged (i : CoreInv k h v w) (hp : v.phase = .out)
    (hr : k.conn.lastGen = word v.n) : CoreInv k h { v with phase := .quiet } w where
  __ := i
  gens := by rw [i.gens,hp]; rfl
  count := by
    rcases i.count with hn | ⟨hn,-⟩
    · exact Or.inl hn
    · rw [i.last,hn] at hr
      exact absurd hr.symm (word_succ_ne w.m)
  known hk := by simpa [hp] using (i.known hk).1

theorem coreInv_foundIdle (i : CoreInv k h v w) (hp : v.phase = .quiet)
    (hr : k.conn.idling = true) : CoreInv k h { v with known := true } w where
  __ := i
  known _ := ⟨hp,by rw [← i.idling,hr]⟩

theorem coreInv_storeToSteal (i : CoreInv k h v w) (b : Bool) :
    CoreInv { k with conn := { k.conn with toSteal := b } } h v w where
  __ := i

theorem coreInv_loadGen (i : CoreInv k h v w) :
    w.seen = false ∧ k.conn.gen = word w.m ∨
      k.conn.gen = word (w.m+1) ∧ CoreInv k h v { w with seen := true } := by
  rcases i.count with hn | ⟨hn,-⟩
  · left
    refine ⟨?_,by rw [i.gen,hn]⟩
    cases hs : w.seen with
    | false => rfl
    | true =>
      have := i.seen hs
      omega
  · right
    refine ⟨by rw [i.gen,hn],?_⟩
    exact {
      __ := i
      seen := fun _ => hn
      tid := fun x hx => ⟨rfl,(i.tid x hx).2⟩ }

theorem coreInv_loadNextTid (i : CoreInv k h v w) (hs : w.seen = true) :
    CoreInv k h v { w with tid := some k.conn.nextTid } where
  __ := i
  tid x hx := by
    obtain rfl := Option.some.inj hx
    exact ⟨hs,i.staged⟩

theorem coreInv_storeLastGen (i : CoreInv k h v w) (hs : w.seen = true)
    (ht : w.tid = some (tookId w.took)) :
    CoreInv { k with conn := { k.conn with lastGen := word (w.m+1) } }
      { h with acted := h.acted++[(word (w.m+1),tookId h.took)] } v
      { w with m := w.m+1, seen := false, tid := none } := by
  have hst := (i.tid _ ht).2
  have hn := i.seen hs
  obtain ⟨g,hg⟩ := i.outstanding hn
  have hgen : g = word (w.m+1) := i.issued_gen _ _ hg
  exact {
    __ := i
    last := rfl
    count := Or.inl hn
    seen := fun hf => by simp at hf
    acted := by
      dsimp only
      rw [List.take_add_one,hg,i.acted,i.took,hst,hgen]
      rfl
    outstanding := fun ho => by dsimp only at ho; omega
    tid := fun _ hf => by simp at hf }

theorem coreInv_storeIdling (i : CoreInv k h v w) {b : Bool}
    (hb : if b then w.user = false else w.seen = true) :
    CoreInv { k with conn := { k.conn with idling := b } } { h with idling := b } v
      { w with idling := b } where
  __ := i
  idling := rfl
  idling_hist := rfl
  awake _ hf := by
    dsimp only at hf
    simpa [hf] using hb
  known hk := by
    refine ⟨(i.known hk).1,?_⟩
    cases b with
    | true => rfl
    | false =>
      -- a noticed request is outstanding, so the iokernel does not count on the flag
      have ho := i.seen_out (by simpa using hb)
      rw [(i.known hk).1] at ho
      simp at ho

theorem coreInv_enterUser (i : CoreInv k h v w) (ho : w.ok = true → w.idling = false) :
    CoreInv { k with user := true } h v { w with user := true } where
  __ := i
  user := rfl
  awake hok hid := by
    rw [ho hok] at hid
    simp at hid

theorem coreInv_leaveUser (i : CoreInv k h v w) :
    CoreInv { k with user := false } h v { w with user := false } where
  __ := i
  user := rfl
  awake _ _ := rfl

theorem coreInv_storeCurCluster (i : CoreInv k h v w) (x : Option ℕ) :
    CoreInv { k with cur := x } { h with took := none } v { w with cur := x, took := none } where
  __ := i
  cur := rfl
  took := rfl

theorem coreInv_loadClusterPtr (i : CoreInv k h v w) (x : Option (ℤ × ℕ)) :
    CoreInv k { h with looked := x } v { w with looked := x } where
  __ := i
  looked := rfl

/-- A core takes a cluster, from its list or by the compare-and-swap. -/
theorem coreInv_take (i : CoreInv k h v w) (x : Option (ℤ × ℕ)) :
    CoreInv k { h with took := x } v { w with took := x } where
  __ := i
  took := rfl

theorem coreInv_popped (i : CoreInv k h v w) (b : Bool) :
    CoreInv k h v { w with ok := w.ok && b } where
  __ := i
  awake hok := i.awake (by simpa using (Bool.and_eq_true_iff.mp hok).1)

end Steps

/-! ### One step of the system -/

/-- The core whose part of memory or history an access of party `p` changes. -/
def Op.target (p : Party) : Op → Option ℕ
  | .bumpGen c | .storeNextTid c _ | .storeGen c _ | .storeLastGen c _ | .storeIdling c _
  | .storeToSteal c _ | .enterUser c | .leaveUser c | .storeCurCluster c _ | .popCluster c => some c
  | .casParked _ | .loadClusterPtr _ =>
    match p with
    | .core c => some c
    | _ => none
  | _ => none

theorem snap_of_ne {op : Op} {m m' : Mem} {r : Res op} {c : ℕ} {p : Party} (h : sem op m r m')
    (hc : op.target p ≠ some c) : snap c m' = snap c m := by
  cases op with
  | bumpGen c' =>
    obtain ⟨-,rfl⟩ := h
    simp [snap,update_of_ne (fun he => hc (by rw [he]; rfl) : c ≠ c')]
  | storeNextTid c' _ | storeGen c' _ | storeLastGen c' _ | storeIdling c' _ | storeToSteal c' _
  | enterUser c' | leaveUser c' | storeCurCluster c' _ =>
    obtain rfl := h
    simp [snap,Mem.setConn,update_of_ne (fun he => hc (by rw [he]; rfl) : c ≠ c')]
  | kschedGen _ | loadNextTid _ | loadGen _ | loadLastGen _ | loadIdling _ | loadToExit _
  | loadCurCluster _ | loadClusterPtr _ =>
    obtain ⟨-,rfl⟩ := h
    rfl
  | enqueueIntr _ | skipIntr _ | sendIntrs | rxqPending _ | hwqBusy _ _ | measureDelay _
  | hwqDelay _ | attachTask _ | deattachTask _ | attachCluster _ _ | parkCluster _
  | storeParked _ _ | storeToExit _ _ | deallocCluster _ =>
    obtain rfl := h
    rfl
  | popCluster c' =>
    simp only [sem] at h
    split at h <;> obtain ⟨-,rfl⟩ := h <;> rfl
  | casParked _ =>
    simp only [sem] at h
    split at h <;> obtain ⟨-,rfl⟩ := h <;> rfl
  | allocCluster => rcases h with ⟨-,rfl⟩ | ⟨a,-,-,-,rfl⟩ <;> rfl

theorem record_of_ne {op : Op} {r : Res op} {c : ℕ} {h : Hist} {p : Party}
    (hc : op.target p ≠ some c) : h.record c p op r = h := by
  cases op with
  | storeNextTid c' _ | storeGen c' _ | storeLastGen c' _ | storeIdling c' _ | popCluster c'
  | storeCurCluster c' _ => exact if_neg fun he => hc (by rw [← he]; rfl)
  | casParked _ | loadClusterPtr _ => exact if_neg fun he => hc (by rw [he]; rfl)
  | _ => rfl

section System

variable {C : Type} {m m' : Mem} {t : SystemTrace C} {v : ℕ → IokCore} {w : ℕ → CoreView}
  {i : Party} {op : Op} {r : Res op} {c : ℕ} {vc : IokCore} {wc : CoreView}

/-- What the newest event says: a new `next_tid` overwrites nothing, a core switches to the cluster
it has taken before it takes another one, and a core that the iokernel takes for idle has its flag
set. -/
def HandEvent (m : Mem) (t : SystemTrace C) :
    Event Party Op Res (PartyCall C) (fun _ => Unit) → Prop
  | .act _ (.storeNextTid c _) _ => (history c t).acted = (history c t).issued
  | .act _ (.storeCurCluster c x) _ => (history c t).took.map Prod.snd = x
  | .act _ (.popCluster c) _ | .act (.core c) (.casParked _) _ => (history c t).took = none
  | .act .iok (.loadIdling c) r => r = true → (m.conn c).idling = true
  | .act _ (.skipIntr c) _ => (m.conn c).idling = true
  | _ => True

structure HandInv (m : Mem) (t : SystemTrace C) (v : ℕ → IokCore) (w : ℕ → CoreView) : Prop where
  core : ∀ c, CoreInv (snap c m) (history c t) (v c) (w c)
  pops : popsAwake t = true → ∀ c, (w c).ok = true
  last : ∀ e t', t = e::t' → HandEvent m t' e

theorem popsAwake_tail (h : popsAwake (.act i op r::t) = true) : popsAwake t = true := by
  cases op with
  | popCluster c => exact (Bool.and_eq_true_iff.mp h).2
  | _ => exact h

theorem handEvent_cons {e : Event Party Op Res (PartyCall C) fun _ => Unit}
    (h : HandEvent m t e) : ∀ e' t', e::t = e'::t' → HandEvent m t' e' := by
  rintro _ _ ⟨⟩
  exact h

theorem HandInv.taken (h : HandInv m t v w) {c : ℕ} (ht : takenForIdle c t = true) :
    (m.conn c).idling = true := by
  unfold takenForIdle at ht
  split at ht
  · rename_i c' r t'
    obtain ⟨rfl,hr⟩ : c' = c ∧ r = true := by simpa using ht
    exact h.last _ _ rfl hr
  · rename_i c' u t'
    obtain rfl : c' = c := by simpa using ht
    exact h.last _ _ rfl
  · simp at ht

/-- An access that concerns core `c` at most moves the two logical states of `c`. -/
theorem handInv_act (h : HandInv m t v w) (hsem : sem op m r m')
    (hother : ∀ c', c' ≠ c → op.target i ≠ some c')
    (hown : CoreInv (snap c m') ((history c t).record c i op r) vc wc)
    (hpop : popsAwake (.act i op r::t) = true → (w c).ok = true → wc.ok = true)
    (hev : HandEvent m' t (.act i op r)) :
    HandInv m' (.act i op r::t) (update v c vc) (update w c wc) where
  core c' := by
    by_cases hc : c' = c
    · subst hc
      rw [update_self,update_self]
      exact hown
    · rw [update_of_ne hc,update_of_ne hc,snap_of_ne hsem (hother c' hc)]
      change CoreInv _ ((history c' t).record c' i op r) _ _
      rw [record_of_ne (hother c' hc)]
      exact h.core c'
  pops hp c' := by
    have hok := h.pops (popsAwake_tail hp) c'
    by_cases hc : c' = c
    · subst hc
      rw [update_self]
      exact hpop hp hok
    · rw [update_of_ne hc]
      exact hok
  last := handEvent_cons hev

theorem target_ne (hn : op.target i = some c) : ∀ c', c' ≠ c → op.target i ≠ some c' := by
  rintro c' hc he
  exact hc (Option.some.inj (he.symm.trans hn))

/-- The iokernel writes to core `c`. -/
theorem handInv_iok (h : HandInv m t v w) (hsem : sem op m r m') (hn : op.target i = some c)
    (hown : CoreInv (snap c m') ((history c t).record c i op r) vc (w c))
    (hev : HandEvent m' t (.act i op r)) : HandInv m' (.act i op r::t) (update v c vc) w := by
  have hs := handInv_act h hsem (target_ne hn) hown (fun _ hok => hok) hev
  rwa [update_eq_self c w] at hs

/-- Core `c` moves. -/
theorem handInv_core (h : HandInv m t v w) (hsem : sem op m r m') (hn : op.target i = some c)
    (hown : CoreInv (snap c m') ((history c t).record c i op r) (v c) wc)
    (hpop : popsAwake (.act i op r::t) = true → (w c).ok = true → wc.ok = true)
    (hev : HandEvent m' t (.act i op r)) : HandInv m' (.act i op r::t) v (update w c wc) := by
  have hs := handInv_act h hsem (target_ne hn) hown hpop hev
  rwa [update_eq_self c v] at hs

/-- An access that changes neither memory nor history of any core. -/
theorem handInv_look (h : HandInv m t v w) (hsem : sem op m r m') (hn : op.target i = none)
    (hown : CoreInv (snap c m) (history c t) vc wc) (hpop : (w c).ok = true → wc.ok = true)
    (hev : HandEvent m' t (.act i op r)) :
    HandInv m' (.act i op r::t) (update v c vc) (update w c wc) := by
  refine handInv_act h hsem (fun _ _ => by simp [hn]) ?_ (fun _ => hpop) hev
  rw [snap_of_ne (p:=i) hsem (by simp [hn]),record_of_ne (by simp [hn])]
  exact hown

theorem handInv_same (h : HandInv m t v w) (hsem : sem op m r m') (hn : op.target i = none)
    (hev : HandEvent m' t (.act i op r)) : HandInv m' (.act i op r::t) v w := by
  have hs := handInv_look h hsem hn (h.core 0) id hev
  rwa [update_eq_self,update_eq_self] at hs

theorem iok_act (h : HandInv m t v w) (hmay : iokRules.may v op) (hsem : sem op m r m') :
    ∃ v', iokRules.next v op r v' ∧ HandInv m' (.act .iok op r::t) v' w := by
  cases op with
  | bumpGen c =>
    have hk := h.core c
    obtain ⟨hr,rfl⟩ := id hsem
    have hg : r = word ((v c).n+1) := by
      rw [hr,show m.kschedGens c = word ((v c).n+(v c).phase.bump) from hk.gens,hmay,word_add_one]
      rfl
    refine ⟨_,⟨hg,rfl⟩,handInv_iok h hsem rfl ?_ trivial⟩
    simpa [snap,hr,Hist.record] using coreInv_bumpGen hk hmay
  | storeNextTid c tid =>
    have hk := h.core c
    obtain rfl := id hsem
    refine ⟨_,rfl,handInv_iok h hsem rfl ?_ ?_⟩
    · simpa [snap,Mem.setConn,Hist.record] using coreInv_storeNextTid hk hmay tid
    · change (history c t).acted = (history c t).issued
      have hn := hk.idle_count (by rw [hmay]; simp)
      rw [hk.acted,List.take_of_length_le (by rw [hk.issued_len,hn])]
  | storeGen c g =>
    obtain rfl := id hsem
    obtain ⟨⟨tid,hp⟩,rfl⟩ := hmay
    refine ⟨_,rfl,handInv_iok h hsem rfl ?_ trivial⟩
    simpa [snap,Mem.setConn,Hist.record] using coreInv_storeGen (h.core c) hp
  | storeToSteal c b =>
    obtain rfl := id hsem
    refine ⟨v,rfl,?_⟩
    rw [← update_eq_self c v]
    refine handInv_iok h hsem rfl ?_ trivial
    simpa [snap,Mem.setConn,Hist.record] using coreInv_storeToSteal (h.core c) b
  | skipIntr c =>
    obtain rfl := id hsem
    refine ⟨v,rfl,handInv_same h hsem rfl ?_⟩
    have hidle := ((h.core c).known hmay).2
    rw [← (h.core c).idling] at hidle
    exact hidle
  | kschedGen c =>
    obtain ⟨hr,rfl⟩ := id hsem
    exact ⟨v,⟨hr.trans (h.core c).gens,rfl⟩,handInv_same h hsem rfl trivial⟩
  | loadLastGen c =>
    obtain ⟨hr,rfl⟩ := id hsem
    by_cases hp : (v c).phase = .out
    · by_cases hg : r = word (v c).n
      · refine ⟨update v c { v c with phase := .quiet },?_,?_⟩
        · exact (iokRules_acknowledged hp).mpr (Or.inl ⟨hg,rfl⟩)
        · rw [← update_eq_self c w]
          exact handInv_look h hsem rfl (coreInv_acknowledged (h.core c) hp (hr ▸ hg)) id trivial
      · exact ⟨v,(iokRules_acknowledged hp).mpr (Or.inr ⟨hg,rfl⟩),handInv_same h hsem rfl trivial⟩
    · exact ⟨v,(iokRules_notOut hp).mpr rfl,handInv_same h hsem rfl trivial⟩
  | loadIdling c =>
    obtain ⟨hr,rfl⟩ := id hsem
    by_cases hp : (v c).phase = .quiet ∧ r = true
    · refine ⟨update v c { v c with known := true },?_,?_⟩
      · exact (iokRules_foundIdle hp).mpr rfl
      · rw [← update_eq_self c w]
        exact handInv_look h hsem rfl (coreInv_foundIdle (h.core c) hp.1 (hr ▸ hp.2)) id
          fun ht => hr ▸ ht
    · exact ⟨v,(iokRules_notIdle hp).mpr rfl,handInv_same h hsem rfl fun ht => hr ▸ ht⟩
  | enqueueIntr _ | sendIntrs | rxqPending _ | hwqBusy _ _ | measureDelay _ | hwqDelay _ =>
    exact ⟨v,rfl,handInv_same h hsem rfl trivial⟩
  | _ => exact hmay.elim

theorem core_act {j : ℕ} (h : HandInv m t v w) (hmay : (coreRules j).may (w j) op)
    (hsem : sem op m r m') :
    ∃ g, (coreRules j).next (w j) op r g ∧
      HandInv m' (.act (.core j) op r::t) v (update w j g) := by
  have hk := h.core j
  have hwj : update w j (w j) = w := update_eq_self j w
  cases op with
  | loadGen c =>
    obtain rfl := hmay
    obtain ⟨hr,rfl⟩ := id hsem
    rcases coreInv_loadGen hk with ⟨hs,hg⟩ | ⟨hg,hown⟩
    · refine ⟨w c,Or.inl ⟨hs,hr.trans hg,rfl⟩,?_⟩
      rw [hwj]
      exact handInv_same h hsem rfl trivial
    · refine ⟨_,Or.inr ⟨hr.trans hg,rfl⟩,?_⟩
      rw [← update_eq_self c v]
      exact handInv_look h hsem rfl hown id trivial
  | loadLastGen c =>
    obtain rfl := hmay
    obtain ⟨hr,rfl⟩ := id hsem
    refine ⟨w c,⟨hr.trans hk.last,rfl⟩,?_⟩
    rw [hwj]
    exact handInv_same h hsem rfl trivial
  | loadNextTid c =>
    obtain ⟨rfl,hs⟩ := hmay
    obtain ⟨rfl,rfl⟩ := id hsem
    refine ⟨_,rfl,?_⟩
    rw [← update_eq_self c v]
    exact handInv_look h hsem rfl (coreInv_loadNextTid hk hs) id trivial
  | storeLastGen c g =>
    obtain ⟨rfl,hs,ht,rfl⟩ := hmay
    obtain rfl := id hsem
    refine ⟨_,rfl,handInv_core h hsem rfl ?_ (fun _ => id) trivial⟩
    simpa [snap,Mem.setConn,Hist.record] using coreInv_storeLastGen hk hs ht
  | storeIdling c b =>
    obtain ⟨rfl,hb⟩ := hmay
    obtain rfl := id hsem
    refine ⟨_,rfl,handInv_core h hsem rfl ?_ (fun _ => id) trivial⟩
    simpa [snap,Mem.setConn,Hist.record] using coreInv_storeIdling hk hb
  | enterUser c =>
    obtain ⟨rfl,ho⟩ := hmay
    obtain rfl := id hsem
    refine ⟨_,rfl,handInv_core h hsem rfl ?_ (fun _ => id) trivial⟩
    simpa [snap,Hist.record] using coreInv_enterUser hk ho
  | leaveUser c =>
    obtain rfl := hmay
    obtain rfl := id hsem
    refine ⟨_,rfl,handInv_core h hsem rfl ?_ (fun _ => id) trivial⟩
    simpa [snap,Hist.record] using coreInv_leaveUser hk
  | storeCurCluster c x =>
    obtain ⟨rfl,hx⟩ := hmay
    obtain rfl := id hsem
    refine ⟨_,rfl,handInv_core h hsem rfl ?_ (fun _ => id)
      ((congrArg (Option.map Prod.snd) hk.took).trans hx)⟩
    simpa [snap,Hist.record] using coreInv_storeCurCluster hk x
  | loadClusterPtr tid =>
    obtain ⟨-,rfl⟩ := id hsem
    refine ⟨_,rfl,handInv_core h hsem rfl ?_ (fun _ => id) trivial⟩
    simpa [Hist.record] using coreInv_loadClusterPtr hk _
  | casParked a =>
    refine ⟨_,rfl,handInv_core h hsem rfl ?_ (fun _ => id) (hk.took.trans hmay)⟩
    rw [show snap j m' = snap j m from snap_of_ne (p:=.iok) hsem (by simp [Op.target])]
    simpa [Hist.record,hk.looked,hk.took] using coreInv_take hk _
  | loadCurCluster c =>
    obtain rfl := hmay
    obtain ⟨hr,rfl⟩ := id hsem
    refine ⟨w c,⟨hr.trans hk.cur,rfl⟩,?_⟩
    rw [hwj]
    exact handInv_same h hsem rfl trivial
  | popCluster c =>
    obtain ⟨rfl,ht⟩ := hmay
    refine ⟨_,rfl,handInv_core h hsem rfl ?_ (fun hp hok => ?_) (hk.took.trans ht)⟩
    · have hs : snap c m' = snap c m := by
        simp only [sem] at hsem
        split at hsem <;> obtain ⟨-,rfl⟩ := hsem <;> rfl
      rw [hs]
      simpa [Hist.record] using coreInv_popped (coreInv_take hk _) _
    · have hidle := (Bool.and_eq_true_iff.mp hp).1
      rw [hk.idling_hist] at hidle
      simp only [hok,hidle,Bool.and_self]
  | attachCluster _ _ | parkCluster _ | storeParked _ _ | loadToExit _ | storeToExit _ _
  | allocCluster | deallocCluster _ | attachTask _ | deattachTask _ =>
    refine ⟨w j,rfl,?_⟩
    rw [hwj]
    exact handInv_same h hsem rfl trivial
  | _ => exact hmay.elim

theorem daemon_act (h : HandInv m t v w) (hmay : daemonRules.may () op) (hsem : sem op m r m') :
    HandInv m' (.act .daemon op r::t) v w := by
  cases op with
  | attachCluster _ _ | storeParked _ _ | storeToExit _ _ | allocCluster | attachTask _ =>
    exact handInv_same h hsem rfl trivial
  | _ => exact hmay.elim

end System

end Vessel
