import Vessel.Linked
import Vessel.Machine
import Vessel.Parts

/-! The thread cache.  A magazine is a list of items that is threaded through the items, and the
magazines of the shared pool are threaded through their first items.  Every handle belongs to one
thread; the sections under the lock of the pool, and the calls of the backing allocator, are steps. -/
namespace Vessel
namespace Tcache

open Linked Function List Option

def tcacheMaxMagSize : ℕ := 64

/-- The fields of `struct tcache` that `tcache_create` fixes. -/
structure Config where
  magSize : ℕ
  magSize_le : magSize ≤ tcacheMaxMagSize

/-- `struct tcache_perthread`. -/
structure Handle (α : Type) where
  rounds : ℕ
  capacity : ℕ
  loaded : Option α
  previous : Option α

/-- The cache with its handles `H`, and the threads `R` that reclaim.  `nextItem` and `nextMag` are
the header in the memory of an item, which its holder may overwrite.  `refilling` tells which handles
are in a call of the backing allocator, `reclaim` is the list a reclaim has still to go through.
`held` and `out` are bookkeeping: the items that callers hold, and those that the backing allocator
has given and not got back. -/
structure Sys (H R α : Type) where
  nextItem : α → Option α
  nextMag : α → Option α
  handle : H → Handle α
  sharedMags : Option α
  refilling : H → Bool
  reclaim : R → Option α
  held : List α
  out : α → Bool

inductive Event (H R α : Type) where
  | alloc (h : H)
  /-- The backing allocator returns these items, or none. -/
  | refill (h : H) (items : Option (List α))
  | free (h : H) (x : α)
  | reclaim (r : R)
  | reclaimNext (r : R)
  /-- The holder of an item writes to it. -/
  | store (x : α) (nextItem nextMag : Option α)

variable {H R α : Type} [DecidableEq H] [DecidableEq R] [DecidableEq α]

namespace Sys

/-- `tcache_create` and `tcache_init_perthread` for all handles. -/
def init (c : Config) (nextItem nextMag : α → Option α) : Sys H R α :=
  ⟨nextItem,nextMag,fun _ => ⟨0,c.magSize,none,none⟩,none,fun _ => false,fun _ => none,[],fun _ => false⟩

def setHandle (s : Sys H R α) (h : H) (ltc : Handle α) : Sys H R α :=
  { s with handle := update s.handle h ltc }

/-- The end of both paths of `tcache_alloc`, with the item `x` first in the magazine. -/
def take (s : Sys H R α) (h : H) (ltc : Handle α) (rounds : ℕ) (x : α) : Sys H R α × Option α :=
  ({ s.setHandle h { ltc with rounds := rounds, loaded := s.nextItem x } with held := x::s.held },
    some x)

/-- `tcache_alloc`, up to the call of the backing allocator if there is one. -/
def alloc (s : Sys H R α) (h : H) : Option (Sys H R α × Option α) :=
  let ltc := s.handle h
  if s.refilling h then none
  else if ltc.rounds ≠ 0 then ltc.loaded.map (s.take h ltc (ltc.rounds-1))
  else match ltc.previous with
    | some x => some (s.take h { ltc with previous := none } (ltc.capacity-1) x)
    | none => match s.sharedMags with
      | some x => some (take { s with sharedMags := s.nextMag x } h ltc (ltc.capacity-1) x)
      | none => some ({ s.setHandle h { ltc with loaded := none } with
          refilling := update s.refilling h true },none)

/-- `tcache_alloc_mag`, and the rest of `__tcache_alloc`.  The backing allocator gives as many items
as it was asked for, which are distinct and none of those that it has given before. -/
def refill (c : Config) (s : Sys H R α) (h : H) (items : Option (List α)) :
    Option (Sys H R α × Option α) :=
  let ltc := s.handle h
  let s := { s with refilling := update s.refilling h false }
  match items with
  | none => some (s.setHandle h { ltc with loaded := none },none)
  | some items =>
    if items.length = c.magSize ∧ items.Nodup ∧ ∀ x ∈ items, s.out x = false then
      items.head?.map (take { s with
        nextItem := link items s.nextItem
        out := fun x => decide (x ∈ items) || s.out x } h ltc (ltc.capacity-1))
    else none

/-- `tcache_free`. -/
def free (s : Sys H R α) (h : H) (x : α) : Sys H R α :=
  let ltc := s.handle h
  let s := { s with held := s.held.erase x }
  if ltc.capacity ≤ ltc.rounds then
    let s := { s with nextItem := update s.nextItem x none }
    let full := { ltc with previous := ltc.loaded, rounds := 1, loaded := some x }
    match ltc.previous with
    | none => s.setHandle h full
    | some m => { s.setHandle h full with
        nextMag := update s.nextMag m s.sharedMags
        sharedMags := some m }
  else { s.setHandle h { ltc with rounds := ltc.rounds+1, loaded := some x } with
    nextItem := update s.nextItem x ltc.loaded }

/-- One round of the loop of `tcache_reclaim`, with `tcache_free_mag`. -/
def reclaimNext (s : Sys H R α) (r : R) : Option (Sys H R α) :=
  (s.reclaim r).bind fun m => (walk s.nextItem tcacheMaxMagSize (some m)).map fun items => { s with
    reclaim := update s.reclaim r (s.nextMag m)
    out := fun x => !decide (x ∈ items) && s.out x }

/-- The next state, and what a `tcache_alloc` that ends with the step returns. -/
def step (c : Config) (s : Sys H R α) : Event H R α → Option (Sys H R α × Option α)
  | .alloc h => s.alloc h
  | .refill h items => if s.refilling h then s.refill c h items else none
  | .free h x => if s.refilling h = false ∧ x ∈ s.held then some (s.free h x,none) else none
  | .reclaim r =>
    if s.reclaim r = none then some ({ s with
      reclaim := update s.reclaim r s.sharedMags
      sharedMags := none },none)
    else none
  | .reclaimNext r => (s.reclaimNext r).map fun s => (s,none)
  | .store x nextItem nextMag =>
    if x ∈ s.held then some ({ s with
      nextItem := update s.nextItem x nextItem
      nextMag := update s.nextMag x nextMag },none)
    else none

end Sys

/-- The runs of a cache, whatever is in the memory of the items at the start. -/
def run (c : Config) (nextItem nextMag : α → Option α) (es : List (Event H R α)) :
    Option (Sys H R α) :=
  Machine.run (fun s e => (s.step c e).map Prod.fst) (.init c nextItem nextMag) es

/-! ### The places of the items -/

/-- Where the items are that the backing allocator has given: with a caller, in a magazine of a
handle, in the shared pool, or in a part of it that a reclaim has taken and still has to return. -/
inductive Place (H R : Type) where
  | held
  | loaded (h : H)
  | previous (h : H)
  | shared
  | reclaim (r : R)
deriving DecidableEq

/-- Magazines of `n` items that are threaded through their first items. -/
def Mags (n : ℕ) (nextItem nextMag : α → Option α) : Option α → List (List α) → Prop
  | p,[] => p = none
  | p,m::ms => ∃ x, p = some x ∧ Chain nextItem p m ∧ m.length = n ∧ Mags n nextItem nextMag (nextMag x) ms

/-- The items `l` are the ones at a place, and its magazines are as full as they should be. -/
def Laid (c : Config) (s : Sys H R α) (l : List α) : Place H R → Prop
  | .held => l = s.held
  | .loaded h => Chain s.nextItem (s.handle h).loaded l ∧ l.length = (s.handle h).rounds ∧
    (s.handle h).rounds ≤ c.magSize
  | .previous h => Chain s.nextItem (s.handle h).previous l ∧
    ((s.handle h).previous = none ∨ l.length = c.magSize)
  | .shared => ∃ ms, l = ms.flatten ∧ Mags c.magSize s.nextItem s.nextMag s.sharedMags ms
  | .reclaim r => ∃ ms, l = ms.flatten ∧ Mags c.magSize s.nextItem s.nextMag (s.reclaim r) ms

/-- Every item that the backing allocator has given is at one place. -/
structure Inv (c : Config) (s : Sys H R α) (items : Place H R → List α) : Prop where
  parts : Parts items
  laid : ∀ p, Laid c s (items p) p
  out : ∀ x, s.out x = true ↔ Parts.Within items x
  capacity : ∀ h, (s.handle h).capacity = c.magSize
  refilling : ∀ h, s.refilling h = true → (s.handle h).rounds = 0
  pos : ∀ x, s.out x = true → 0 < c.magSize

section Steps

variable {c : Config} {s s' : Sys H R α} {items : Place H R → List α} {p : Place H R} {h : H} {x : α}
  {l : List α}

omit [DecidableEq α] in
theorem Mags.congr {n : ℕ} {nextItem nextItem' nextMag nextMag' : α → Option α} {m : Option α}
    {ms : List (List α)} (hm : Mags n nextItem nextMag m ms)
    (hitem : ∀ x ∈ ms.flatten, nextItem' x = nextItem x)
    (hmag : ∀ x ∈ ms.flatten, nextMag' x = nextMag x) : Mags n nextItem' nextMag' m ms := by
  induction ms generalizing m with
  | nil => exact hm
  | cons l ms ih =>
    obtain ⟨x,rfl,hchain,hlen,hms⟩ := hm
    obtain ⟨l,rfl,-⟩ := hchain.eq_cons
    simp only [flatten_cons,mem_append] at hitem hmag
    refine ⟨x,rfl,hchain.congr fun y hy => hitem y (Or.inl hy),hlen,?_⟩
    rw [hmag x (Or.inl mem_cons_self)]
    exact ih hms (fun y hy => hitem y (Or.inr hy)) fun y hy => hmag y (Or.inr hy)

/-- The pointers to what is at a place are the same in both states. -/
def SameRoot (s s' : Sys H R α) : Place H R → Prop
  | .held => s'.held = s.held
  | .loaded h => (s'.handle h).loaded = (s.handle h).loaded ∧ (s'.handle h).rounds = (s.handle h).rounds
  | .previous h => (s'.handle h).previous = (s.handle h).previous
  | .shared => s'.sharedMags = s.sharedMags
  | .reclaim r => s'.reclaim r = s.reclaim r

omit [DecidableEq H] [DecidableEq R] [DecidableEq α] in
theorem Laid.frame (hl : Laid c s l p) (hroot : SameRoot s s' p)
    (hitem : ∀ x ∈ l, s'.nextItem x = s.nextItem x) (hmag : ∀ x ∈ l, s'.nextMag x = s.nextMag x) :
    Laid c s' l p := by
  cases p with
  | held => exact hl.trans hroot.symm
  | loaded h =>
    rw [Laid,hroot.1,hroot.2]
    exact ⟨hl.1.congr hitem,hl.2⟩
  | previous h =>
    rw [Laid,hroot]
    exact ⟨hl.1.congr hitem,hl.2⟩
  | shared =>
    obtain ⟨ms,rfl,hms⟩ := hl
    rw [Laid,hroot]
    exact ⟨ms,rfl,hms.congr hitem hmag⟩
  | reclaim r =>
    obtain ⟨ms,rfl,hms⟩ := hl
    rw [Laid,hroot]
    exact ⟨ms,rfl,hms.congr hitem hmag⟩

omit [DecidableEq H] [DecidableEq R] [DecidableEq α] in
theorem Inv.loaded_eq_nil (hi : Inv c s items) (hr : (s.handle h).rounds = 0) :
    items (.loaded h) = [] :=
  length_eq_zero_iff.mp ((hi.laid (.loaded h)).2.1.trans hr)

omit [DecidableEq α] in
theorem Inv.move (hi : Inv c s items) (p q : Place H R) (l rest : List α)
    (hp : (items p).Perm (l++rest)) (hq : q ≠ p) (hlaidp : Laid c s' rest p)
    (hlaidq : Laid c s' (l++items q) q) (hroot : ∀ p', p' ≠ p → p' ≠ q → SameRoot s s' p')
    (hkeep : ∀ p', p' ≠ p → ∀ x ∈ items p',
      s'.nextItem x = s.nextItem x ∧ s'.nextMag x = s.nextMag x)
    (hout : s'.out = s.out) (hcap : ∀ h, (s'.handle h).capacity = (s.handle h).capacity)
    (hrefill : ∀ h, s'.refilling h = true → s.refilling h = true ∧ s'.handle h = s.handle h) :
    ∃ items', Inv c s' items' := by
  obtain ⟨hparts,hwithin⟩ := hi.parts.move hp hq
  refine ⟨_,hparts,fun p' => ?_,fun x => ?_,fun h => (hcap h).trans (hi.capacity h),fun h hh => ?_,
    hout ▸ hi.pos⟩
  · by_cases hp'q : p' = q
    · subst hp'q
      rw [update_self]
      exact hlaidq
    rw [update_of_ne hp'q]
    by_cases hp'p : p' = p
    · subst hp'p
      rw [update_self]
      exact hlaidp
    rw [update_of_ne hp'p]
    exact (hi.laid p').frame (hroot p' hp'p hp'q) (fun x hx => (hkeep p' hp'p x hx).1)
      fun x hx => (hkeep p' hp'p x hx).2
  · rw [hout,hi.out,hwithin]
  · rw [(hrefill h hh).2]
    exact hi.refilling h (hrefill h hh).1

theorem Inv.take (hi : Inv c s items) (hrefill : s.refilling h = false)
    (hx : (s.handle h).loaded = some x) :
    x ∉ s.held ∧ ∃ items', Inv c (s.take h (s.handle h) ((s.handle h).rounds-1) x).1 items' := by
  obtain ⟨hchain,hlen,hle⟩ := hi.laid (.loaded h)
  rw [hx] at hchain
  obtain ⟨l,hl,hchain⟩ := hchain.eq_cons
  have hheld : items .held = s.held := hi.laid .held
  have hmem : x ∈ items (.loaded h) := by simp [hl]
  rw [hl,length_cons] at hlen
  refine ⟨fun hin => ?_,hi.move (.loaded h) .held [x] l (by rw [hl]; rfl)
    (by simp) ?_ ?_ (fun p' _ _ => ?_) (fun _ _ _ _ => ⟨rfl,rfl⟩) rfl ?_ ?_⟩
  · cases hi.parts.apart hmem (hheld ▸ hin : x ∈ items .held)
  · simp only [Laid,Sys.take,Sys.setHandle,update_self]
    exact ⟨hchain,by omega,by omega⟩
  · rw [hheld]
    rfl
  · cases p' <;> simp_all [SameRoot,Sys.take,Sys.setHandle,update_apply] <;> grind
  all_goals (intro h'; by_cases hh : h' = h <;> simp_all [Sys.take,Sys.setHandle])

theorem Inv.loadPrevious (hi : Inv c s items) (hrefill : s.refilling h = false)
    (hr : (s.handle h).rounds = 0) (hx : (s.handle h).previous = some x) :
    ∃ items', Inv c (s.setHandle h { s.handle h with
      rounds := (s.handle h).capacity,loaded := some x,previous := none }) items' := by
  obtain ⟨hchain,hlen⟩ := hi.laid (.previous h)
  have hlen := hlen.resolve_left (by simp [hx])
  rw [hx] at hchain
  refine hi.move (.previous h) (.loaded h) (items (.previous h)) [] (by simp)
    (by simp) ?_ ?_ (fun p' _ _ => ?_) (fun _ _ _ _ => ⟨rfl,rfl⟩) rfl ?_ ?_
  · simp only [Laid,Sys.setHandle,update_self]
    exact ⟨rfl,Or.inl trivial⟩
  · rw [hi.loaded_eq_nil hr,append_nil]
    simp only [Laid,Sys.setHandle,update_self,hi.capacity]
    exact ⟨hchain,hlen,Nat.le_refl _⟩
  · cases p' <;> simp_all [SameRoot,Sys.setHandle]
  all_goals (intro h'; by_cases hh : h' = h <;> simp_all [Sys.setHandle])

theorem Inv.loadShared (hi : Inv c s items) (hrefill : s.refilling h = false)
    (hr : (s.handle h).rounds = 0) (hx : s.sharedMags = some x) :
    ∃ items', Inv c (Sys.setHandle { s with sharedMags := s.nextMag x } h { s.handle h with
      rounds := (s.handle h).capacity,loaded := some x }) items' := by
  obtain ⟨ms,hms,hmags⟩ := hi.laid .shared
  rw [hx] at hmags
  cases ms with
  | nil => cases hmags
  | cons m ms =>
    obtain ⟨y,hy,hchain,hlen,hmags⟩ := hmags
    obtain rfl := some.inj hy
    refine hi.move .shared (.loaded h) m (ms.flatten) (by rw [hms]; rfl) (by simp) ⟨ms,rfl,hmags⟩ ?_
      (fun p' _ _ => ?_) (fun _ _ _ _ => ⟨rfl,rfl⟩) rfl ?_ ?_
    · rw [hi.loaded_eq_nil hr,append_nil]
      simp only [Laid,Sys.setHandle,update_self,hi.capacity]
      exact ⟨hchain,hlen,Nat.le_refl _⟩
    · cases p' <;> simp_all [SameRoot,Sys.setHandle,update_apply] <;> grind
    all_goals (intro h'; by_cases hh : h' = h <;> simp_all [Sys.setHandle])

theorem Inv.loadNew {new : List α} (hi : Inv c s items) (hrefill : s.refilling h = true)
    (hx : new.head? = some x) (hlen : new.length = c.magSize) (hnodup : new.Nodup)
    (hnew : ∀ x ∈ new, s.out x = false) :
    ∃ items', Inv c (Sys.setHandle { s with
      refilling := update s.refilling h false
      nextItem := link new s.nextItem
      out := fun x => decide (x ∈ new) || s.out x } h { s.handle h with
        rounds := (s.handle h).capacity,loaded := some x }) items' := by
  have hr := hi.refilling h hrefill
  have hfresh : ∀ x ∈ new, ¬Parts.Within items x := fun x hx hin =>
    Bool.false_ne_true ((hnew x hx).symm.trans ((hi.out x).mpr hin))
  obtain ⟨hparts,hwithin⟩ := hi.parts.gain (p:=.loaded h) hnodup hfresh
  refine ⟨_,hparts,fun p' => ?_,fun y => ?_,fun h' => ?_,fun h' hh' => ?_,fun y hy => ?_⟩
  · by_cases hp : p' = .loaded h
    · subst hp
      rw [update_self,hi.loaded_eq_nil hr,append_nil]
      simp only [Laid,Sys.setHandle,update_self,hi.capacity]
      exact ⟨hx ▸ chain_link hnodup,hlen,Nat.le_refl _⟩
    · rw [update_of_ne hp]
      refine (hi.laid p').frame ?_ (fun y hy => link_of_not_mem fun hin => hfresh y hin ⟨p',hy⟩)
        fun _ _ => rfl
      cases p' <;> simp_all [SameRoot,Sys.setHandle,update_apply] <;> grind
  · rw [hwithin,← hi.out]
    simp [Sys.setHandle,or_comm]
  · rw [← hi.capacity h']
    by_cases hh : h' = h <;> simp_all [Sys.setHandle]
  · have hne : h' ≠ h := by
      rintro rfl
      simp [Sys.setHandle] at hh'
    simp only [Sys.setHandle,update_of_ne hne] at hh' ⊢
    exact hi.refilling h' hh'
  · rw [← hlen]
    exact length_pos_of_mem (mem_of_mem_head? (mem_def.mpr hx))

omit [DecidableEq R] [DecidableEq α] in
/-- The slow path of an allocation ends like the fast one, with the new magazine loaded. -/
theorem take_setHandle (ltc : Handle α) (n : ℕ) :
    (s.setHandle h { ltc with rounds := n,loaded := some x }).take h
      ((s.setHandle h { ltc with rounds := n,loaded := some x }).handle h)
      (((s.setHandle h { ltc with rounds := n,loaded := some x }).handle h).rounds-1) x =
      s.take h ltc (n-1) x := by
  simp only [Sys.take,Sys.setHandle,update_self,update_idem]

theorem Inv.loadNone {f : H → Bool} (hi : Inv c s items) (hr : (s.handle h).rounds = 0)
    (hf : ∀ h', h' ≠ h → f h' = s.refilling h') :
    Inv c { s.setHandle h { s.handle h with loaded := none } with refilling := f } items where
  parts := hi.parts
  laid p := by
    by_cases hp : p = .loaded h
    · subst hp
      rw [hi.loaded_eq_nil hr]
      simp only [Laid,Sys.setHandle,update_self]
      exact ⟨rfl,hr.symm,by omega⟩
    · refine (hi.laid p).frame ?_ (fun _ _ => rfl) fun _ _ => rfl
      cases p <;> simp_all [SameRoot,Sys.setHandle,update_apply] <;> grind
  out := hi.out
  capacity h' := by
    rw [← hi.capacity h']
    by_cases hh : h' = h <;> simp_all [Sys.setHandle]
  refilling h' hh' := by
    simp only [Sys.setHandle]
    by_cases hne : h' = h
    · rw [hne,update_self]
      exact hr
    · rw [update_of_ne hne]
      exact hi.refilling h' ((hf h' hne).symm.trans hh')
  pos := hi.pos

omit [DecidableEq H] [DecidableEq R] [DecidableEq α] in
theorem handed_out (hx : x ∉ s.held) (hheld : s'.held = x::s.held) (y : α) (hy : some x = some y) :
    y ∉ s.held ∧ s'.held = y::s.held := by
  obtain rfl := some.inj hy
  exact ⟨hx,hheld⟩

theorem alloc_inv {r : Option α} (hi : Inv c s items) (hs : s.alloc h = some (s',r)) :
    (∀ x, r = some x → x ∉ s.held ∧ s'.held = x::s.held) ∧ ∃ items', Inv c s' items' := by
  obtain ⟨hrefill,hs⟩ := ite_none_left_eq_some.mp hs
  have hrefill := eq_false_of_ne_true hrefill
  by_cases hr : (s.handle h).rounds = 0
  · rw [if_neg (not_not.mpr hr)] at hs
    split at hs
    · next x hprev =>
      obtain ⟨items,hi⟩ := hi.loadPrevious hrefill hr hprev
      have htake := hi.take (x:=x) (h:=h) hrefill (by simp [Sys.setHandle])
      rw [take_setHandle { s.handle h with previous := none }] at htake
      obtain ⟨rfl,rfl⟩ := Prod.mk.inj (some.inj hs)
      exact ⟨handed_out htake.1 rfl,htake.2⟩
    · split at hs
      · next x hshared =>
        obtain ⟨items,hi⟩ := hi.loadShared hrefill hr hshared
        have htake := hi.take (x:=x) (h:=h) hrefill (by simp [Sys.setHandle])
        rw [take_setHandle] at htake
        obtain ⟨rfl,rfl⟩ := Prod.mk.inj (some.inj hs)
        exact ⟨handed_out htake.1 rfl,htake.2⟩
      · obtain ⟨rfl,rfl⟩ := Prod.mk.inj (some.inj hs)
        exact ⟨fun x hx => absurd hx (by simp),items,
          hi.loadNone hr fun h' hne => update_of_ne hne ..⟩
  · rw [if_pos hr] at hs
    obtain ⟨x,hx,htake⟩ := map_eq_some_iff.mp hs
    obtain ⟨hnew,hinv⟩ := hi.take hrefill hx
    obtain ⟨rfl,rfl⟩ := Prod.mk.inj htake
    exact ⟨handed_out hnew rfl,hinv⟩

theorem refill_inv {new : Option (List α)} {r : Option α} (hi : Inv c s items)
    (hrefill : s.refilling h = true) (hs : s.refill c h new = some (s',r)) :
    (∀ x, r = some x → x ∉ s.held ∧ s'.held = x::s.held) ∧ ∃ items', Inv c s' items' := by
  have hr := hi.refilling h hrefill
  cases new with
  | none =>
    obtain ⟨rfl,rfl⟩ := Prod.mk.inj (some.inj hs)
    exact ⟨fun x hx => absurd hx (by simp),items,
      hi.loadNone hr fun h' hne => update_of_ne hne ..⟩
  | some new =>
    obtain ⟨⟨hlen,hnodup,hnew⟩,hs⟩ := ite_none_right_eq_some.mp hs
    obtain ⟨x,hx,htake⟩ := map_eq_some_iff.mp hs
    obtain ⟨items,hi⟩ := hi.loadNew hrefill hx hlen hnodup hnew
    have htaken := hi.take (x:=x) (h:=h) (update_self ..) (by simp [Sys.setHandle])
    rw [take_setHandle] at htaken
    obtain ⟨rfl,rfl⟩ := Prod.mk.inj htake
    exact ⟨handed_out htaken.1 rfl,htaken.2⟩

/-! ### A free -/

theorem Inv.share (hi : Inv c s items) (hrefill : s.refilling h = false)
    (hx : (s.handle h).previous = some x) :
    ∃ items', Inv c { s.setHandle h { s.handle h with previous := none } with
      nextMag := update s.nextMag x s.sharedMags
      sharedMags := some x } items' := by
  obtain ⟨hchain,hlen⟩ := hi.laid (.previous h)
  have hlen := hlen.resolve_left (by simp [hx])
  obtain ⟨ms,hms,hmags⟩ := hi.laid .shared
  rw [hx] at hchain
  have hmem : x ∈ items (.previous h) := by
    obtain ⟨l,hl,-⟩ := hchain.eq_cons
    simp [hl]
  have hmag : ∀ p, p ≠ .previous h → ∀ y ∈ items p,
      update s.nextMag x s.sharedMags y = s.nextMag y := fun p hp y hy =>
    update_of_ne (by rintro rfl; exact hp (hi.parts.apart hy hmem)) ..
  refine hi.move (.previous h) .shared (items (.previous h)) [] (by simp)
    (by simp) ?_ ?_ (fun p' _ _ => ?_) (fun p hp y hy => ⟨rfl,hmag p hp y hy⟩) rfl ?_ ?_
  · simp only [Laid,Sys.setHandle,update_self]
    exact ⟨rfl,Or.inl trivial⟩
  · refine ⟨items (.previous h)::ms,by rw [hms]; rfl,x,rfl,hchain,hlen,?_⟩
    change Mags _ s.nextItem (update s.nextMag x s.sharedMags)
      (update s.nextMag x s.sharedMags x) ms
    rw [update_self]
    exact hmags.congr (fun _ _ => rfl) (hms ▸ hmag .shared (by simp))
  · cases p' <;> simp_all [SameRoot,Sys.setHandle,update_apply] <;> grind
  all_goals (intro h'; by_cases hh : h' = h <;> simp_all [Sys.setHandle])

theorem Inv.unload (hi : Inv c s items) (hrefill : s.refilling h = false)
    (hfull : (s.handle h).capacity ≤ (s.handle h).rounds) (hprev : (s.handle h).previous = none) :
    ∃ items', Inv c (s.setHandle h { s.handle h with
      rounds := 0,loaded := none,previous := (s.handle h).loaded }) items' := by
  obtain ⟨hchain,hlen,hle⟩ := hi.laid (.loaded h)
  have hnil : items (.previous h) = [] := by
    have := (hi.laid (.previous h)).1
    rw [hprev] at this
    exact this.eq_nil
  rw [hi.capacity] at hfull
  refine hi.move (.loaded h) (.previous h) (items (.loaded h)) [] (by simp)
    (by simp) ?_ ?_ (fun p' _ _ => ?_) (fun _ _ _ _ => ⟨rfl,rfl⟩) rfl ?_ ?_
  · simp only [Laid,Sys.setHandle,update_self]
    exact ⟨rfl,rfl,Nat.zero_le _⟩
  · rw [hnil,append_nil]
    simp only [Laid,Sys.setHandle,update_self]
    exact ⟨hchain,Or.inr (by omega)⟩
  · cases p' <;> simp_all [SameRoot,Sys.setHandle]
  all_goals (intro h'; by_cases hh : h' = h <;> simp_all [Sys.setHandle])

/-- The fast path of `tcache_free`. -/
def Sys.put (s : Sys H R α) (h : H) (x : α) : Sys H R α :=
  { s.setHandle h { s.handle h with rounds := (s.handle h).rounds+1,loaded := some x } with
    nextItem := update s.nextItem x (s.handle h).loaded
    held := s.held.erase x }

theorem Inv.put (hi : Inv c s items) (hrefill : s.refilling h = false)
    (hroom : (s.handle h).rounds < c.magSize) (hx : x ∈ s.held) :
    ∃ items', Inv c (s.put h x) items' := by
  obtain ⟨hchain,hlen,hle⟩ := hi.laid (.loaded h)
  have hheld : items .held = s.held := hi.laid .held
  have hmem : x ∈ items .held := hheld ▸ hx
  have hout : ∀ p, p ≠ .held → x ∉ items p := fun p hp hin => hp (hi.parts.apart hin hmem)
  refine hi.move .held (.loaded h) [x] (s.held.erase x) ?_ (by simp) rfl ?_ (fun p' _ _ => ?_)
    (fun p hp y hy => ⟨?_,rfl⟩) rfl ?_ ?_
  · rw [hheld]
    exact perm_cons_erase hx
  · simp only [Laid,Sys.put,Sys.setHandle,update_self,singleton_append,length_cons]
    exact ⟨hchain.push (hout _ (by simp)),by omega,by omega⟩
  · cases p' <;> simp_all [SameRoot,Sys.put,Sys.setHandle,update_apply] <;> grind
  · exact update_of_ne (ne_of_mem_of_not_mem hy (hout p hp)) ..
  all_goals (intro h'; by_cases hh : h' = h <;> simp_all [Sys.put,Sys.setHandle])

theorem free_inv (hi : Inv c s items) (hrefill : s.refilling h = false) (hx : x ∈ s.held) :
    ∃ items', Inv c (s.free h x) items' := by
  have hpos : 0 < c.magSize := by
    have hheld : items .held = s.held := hi.laid .held
    exact hi.pos x ((hi.out x).mpr ⟨.held,hheld ▸ hx⟩)
  rw [Sys.free]
  dsimp only
  split
  · next hfull =>
    split
    · next hprev =>
      obtain ⟨items,hi⟩ := hi.unload hrefill hfull hprev
      have hput := hi.put (h:=h) hrefill (by simpa [Sys.setHandle] using hpos) hx
      simpa only [Sys.put,Sys.setHandle,update_self,update_idem] using hput
    · next m hprev =>
      obtain ⟨items,hi⟩ := hi.share hrefill hprev
      obtain ⟨items,hi⟩ := hi.unload (h:=h) hrefill (by simpa [Sys.setHandle] using hfull)
        (by simp [Sys.setHandle])
      have hput := hi.put (h:=h) hrefill (by simpa [Sys.setHandle] using hpos) hx
      simpa only [Sys.put,Sys.setHandle,update_self,update_idem] using hput
  · next hroom =>
    rw [hi.capacity] at hroom
    exact hi.put hrefill (Nat.lt_of_not_le hroom) hx

/-! ### A reclaim -/

theorem reclaim_inv {r : R} (hi : Inv c s items) (hr : s.reclaim r = none) :
    ∃ items', Inv c { s with
      reclaim := update s.reclaim r s.sharedMags
      sharedMags := none } items' := by
  obtain ⟨ms,hms,hmags⟩ := hi.laid .shared
  have hnil : items (.reclaim r) = [] := by
    obtain ⟨ms,hms,hmags⟩ := hi.laid (.reclaim r)
    rw [hr] at hmags
    cases ms with
    | nil => exact hms
    | cons m ms =>
      obtain ⟨x,hx,-⟩ := hmags
      contradiction
  refine hi.move .shared (.reclaim r) (items .shared) [] (by simp) (by simp)
    ⟨[],rfl,rfl⟩ ?_ (fun p' _ _ => ?_) (fun _ _ _ _ => ⟨rfl,rfl⟩) rfl (fun _ => rfl)
    fun _ hh => ⟨hh,rfl⟩
  · rw [hnil,append_nil]
    refine ⟨ms,hms,?_⟩
    simp only [update_self]
    exact hmags
  · cases p' <;> simp_all [SameRoot]

theorem reclaimNext_inv {r : R} (hi : Inv c s items) (hs : s.reclaimNext r = some s') :
    ∃ items', Inv c s' items' := by
  obtain ⟨m,hm,hs⟩ := bind_eq_some_iff.mp hs
  obtain ⟨l,hl,rfl⟩ := map_eq_some_iff.mp hs
  obtain ⟨ms,hms,hmags⟩ := hi.laid (.reclaim r)
  rw [hm] at hmags
  cases ms with
  | nil => cases hmags
  | cons l' ms =>
    obtain ⟨y,hy,hchain,hlen,hmags⟩ := hmags
    obtain rfl := some.inj hy
    obtain rfl := hchain.unique (walk_eq_some hl)
    have hperm : (items (.reclaim r)).Perm (l'++ms.flatten) := by
      rw [hms]
      rfl
    obtain ⟨hparts,hwithin⟩ := hi.parts.lose hperm
    refine ⟨_,hparts,fun p' => ?_,fun x => ?_,hi.capacity,hi.refilling,fun x hx => ?_⟩
    · by_cases hp : p' = .reclaim r
      · subst hp
        rw [update_self]
        refine ⟨ms,rfl,?_⟩
        simp only [update_self]
        exact hmags
      · rw [update_of_ne hp]
        refine (hi.laid p').frame ?_ (fun _ _ => rfl) fun _ _ => rfl
        cases p' <;> simp_all [SameRoot]
    · rw [hwithin,← hi.out]
      simp [and_comm]
    · refine hi.pos x ?_
      simp only [Bool.and_eq_true] at hx
      exact hx.2

theorem store_inv {nextItem nextMag : Option α} (hi : Inv c s items) (hx : x ∈ s.held) :
    Inv c { s with
      nextItem := update s.nextItem x nextItem
      nextMag := update s.nextMag x nextMag } items where
  parts := hi.parts
  laid p := by
    have hheld : items .held = s.held := hi.laid .held
    by_cases hp : p = .held
    · subst hp
      exact hheld
    · have hne : ∀ y ∈ items p, y ≠ x := by
        rintro y hy rfl
        exact hp (hi.parts.apart hy (hheld ▸ hx))
      refine (hi.laid p).frame ?_ (fun y hy => update_of_ne (hne y hy) ..) fun y hy =>
        update_of_ne (hne y hy) ..
      cases p with
      | loaded h => exact ⟨rfl,rfl⟩
      | _ => rfl
  out := hi.out
  capacity := hi.capacity
  refilling := hi.refilling
  pos := hi.pos

theorem step_inv {e : Event H R α} {r : Option α} (hi : Inv c s items)
    (hs : s.step c e = some (s',r)) :
    (∀ x, r = some x → x ∉ s.held ∧ s'.held = x::s.held) ∧ ∃ items', Inv c s' items' := by
  cases e with
  | alloc h => exact alloc_inv hi hs
  | refill h new =>
    obtain ⟨hrefill,hs⟩ := ite_none_right_eq_some.mp hs
    exact refill_inv hi hrefill hs
  | free h x =>
    obtain ⟨⟨hrefill,hx⟩,hs⟩ := ite_none_right_eq_some.mp hs
    obtain ⟨rfl,rfl⟩ := Prod.mk.inj (some.inj hs)
    exact ⟨fun x hx => absurd hx (by simp),free_inv hi hrefill hx⟩
  | reclaim r =>
    obtain ⟨hr,hs⟩ := ite_none_right_eq_some.mp hs
    obtain ⟨rfl,rfl⟩ := Prod.mk.inj (some.inj hs)
    exact ⟨fun x hx => absurd hx (by simp),reclaim_inv hi hr⟩
  | reclaimNext r =>
    obtain ⟨t,ht,hs⟩ := map_eq_some_iff.mp hs
    obtain ⟨rfl,rfl⟩ := Prod.mk.inj hs
    exact ⟨fun x hx => absurd hx (by simp),reclaimNext_inv hi ht⟩
  | store x nextItem nextMag =>
    obtain ⟨hx,hs⟩ := ite_none_right_eq_some.mp hs
    obtain ⟨rfl,rfl⟩ := Prod.mk.inj (some.inj hs)
    exact ⟨fun x hx => absurd hx (by simp),items,store_inv hi hx⟩

omit [DecidableEq H] [DecidableEq R] [DecidableEq α] in
theorem inv_init {nextItem nextMag : α → Option α} :
    Inv c (.init c nextItem nextMag : Sys H R α) fun _ => [] where
  parts := .empty
  laid p := by
    cases p with
    | held => rfl
    | loaded h => exact ⟨rfl,rfl,Nat.zero_le _⟩
    | previous h => exact ⟨rfl,Or.inl rfl⟩
    | shared => exact ⟨[],rfl,rfl⟩
    | reclaim r => exact ⟨[],rfl,rfl⟩
  out x := by simp [Sys.init,Parts.Within]
  capacity _ := rfl
  refilling _ h := nomatch h
  pos _ h := nomatch h

end Steps

/-- In every run, the items that the backing allocator has given and not got back are each at one
place; the magazines there are as full as they should be; and no item is given to a caller that a
caller holds. -/
theorem items_conserved {c : Config} {nextItem nextMag : α → Option α} {es : List (Event H R α)}
    {s : Sys H R α} (hs : run c nextItem nextMag es = some s) :
    (∃ items : Place H R → List α, (∀ p, (items p).Nodup ∧ Laid c s (items p) p) ∧
      (∀ x, s.out x = true → ∃! p, x ∈ items p) ∧ ∀ x p, x ∈ items p → s.out x = true) ∧
    ∀ e s' x, s.step c e = some (s',some x) → x ∉ s.held ∧ s'.held = x::s.held := by
  have hinv : ∃ items, Inv c s items := by
    refine Machine.run_keeps (P:=fun s => ∃ items, Inv c s items) ?_ ⟨_,inv_init⟩ hs
    rintro s t e ⟨items,hi⟩ hstep
    obtain ⟨⟨u,r⟩,hu,rfl⟩ := map_eq_some_iff.mp hstep
    exact (step_inv hi hu).2
  obtain ⟨items,hi⟩ := hinv
  refine ⟨⟨items,fun p => ⟨hi.parts.nodup p,hi.laid p⟩,fun x hx => ?_,fun x p hp => ?_⟩,
    fun e s' x hstep => (step_inv hi hstep).1 x rfl⟩
  · obtain ⟨p,hp⟩ := (hi.out x).mp hx
    exact ⟨p,hp,fun q hq => hi.parts.apart hq hp⟩
  · exact (hi.out x).mpr ⟨p,hp⟩

theorem two_le_max : 2 ≤ tcacheMaxMagSize := by decide

/-- Two handles with magazines of two items.  The first one takes five items and frees them, so that
a magazine gets to the pool and from there back to the backing allocator, which then gives one of its
items to the other handle. -/
def twoHandles (h h' : H) (r : R) : List (Event H R ℕ) :=
  [.alloc h,.refill h (some [1,2]),.store 1 (some 7) (some 7),.alloc h,.alloc h,.refill h (some [3,4]),
    .alloc h,.alloc h,.refill h (some [5,6]),.free h 1,.free h 2,.free h 3,.free h 4,.free h 5,
    .reclaim r,.alloc h',.reclaimNext r,.refill h' (some [1,8])]

theorem items_conserved_two_handles :
    ∃ s, run ⟨2,two_le_max⟩ (fun _ => none) (fun _ => none)
        (twoHandles (0 : Fin 2) 1 (0 : Fin 1)) = some s ∧
      s.held = [1] ∧ s.out 6 = false ∧
      ∃ items : Place (Fin 2) (Fin 1) → List ℕ,
        (∀ p, (items p).Nodup ∧ Laid ⟨2,two_le_max⟩ s (items p) p) ∧
        (∀ x, s.out x = true → ∃! p, x ∈ items p) ∧ ∀ x p, x ∈ items p → s.out x = true := by
  obtain ⟨s,hs,hheld,hout⟩ : ∃ s ∈ run ⟨2,two_le_max⟩ (fun _ => none) (fun _ => none)
      (twoHandles (0 : Fin 2) 1 (0 : Fin 1)),
      s.held = [1] ∧ s.out 6 = false := by
    decide +kernel
  exact ⟨s,hs,hheld,hout,(items_conserved hs).1⟩

end Tcache
end Vessel
