import Vessel.SlabEarly

/-! The two ways from an address to the descriptor of its page: the table of the large pages, and the
descriptors of the small pages at the start of the large page that was shattered into them. -/
namespace Vessel
namespace PageMap

open Slab Function Option

/-- The flags that tell what a page is. -/
structure Flags where
  large : Bool
  shattered : Bool
deriving DecidableEq

/-- Where the page memory and `page_tbl` are.  These are blocks of their own, and `apart` has them apart
for all of the nodes; `page_init` reserves memory for two nodes only, so that the source has it for
`nnuma ≤ 2`. -/
structure Layout where
  nnuma : ℕ
  base : ℕ
  tbl : ℕ
  aligned : base%pgsize2mb = 0
  apart : tbl+nnuma*1024*sizeofPage ≤ base ∨ base+nnuma*lgpageNodeAddrLen ≤ tbl

def pgaddr2mb (a : ℕ) : ℕ := a-a%pgsize2mb

/-- `PGN`: the number of a small page in its large page. -/
def pgn (a : ℕ) : ℕ := (a-pgaddr2mb a)/pgsize4kb

def addrToSmpage (a : ℕ) : ℕ := pgaddr2mb a+pgn a*sizeofPage

def smpageToAddr (pg : ℕ) : ℕ := pgaddr2mb pg+(pg-pgaddr2mb pg)/sizeofPage*pgsize4kb

/-- What a large page is used for, which only the bookkeeping knows. -/
inductive Use where
  | unused
  | whole
  | shattered
deriving DecidableEq

/-- The flags in the descriptor of the page. -/
def Use.flags : Use → Flags
  | .unused => ⟨false,false⟩
  | .whole => ⟨true,false⟩
  | .shattered => ⟨true,true⟩

/-- `flags` are those that a descriptor at an address would have.  Large pages are counted from
`page_tbl` on; `small p i` tells whether item `i` of the slab of small pages is handed out. -/
structure Sys where
  flags : ℕ → Flags
  idx : ℕ → ℕ
  pages : ℕ → List ℕ
  use : ℕ → Use
  small : ℕ → ℕ → Bool

inductive Event where
  | alloc (k : ℕ)
  /-- The slab of small pages gets a large page. -/
  | shatter (k : ℕ)
  | free (p : ℕ)
  | unshatter (p : ℕ)
  | smAlloc (p i : ℕ)
  | smFree (p i : ℕ)
  /-- The holder of a page writes to it, what it likes. -/
  | store (p : ℕ) (flags : ℕ → Flags)
  | smStore (p i : ℕ) (flags : ℕ → Flags)

namespace Layout

variable (l : Layout)

/-- `&page_tbl[p]`. -/
def lgpage (p : ℕ) : ℕ := l.tbl+p*sizeofPage

def addrToLgpage (a : ℕ) : ℕ := l.lgpage ((a-l.base)/pgsize2mb)

def lgpageToAddr (pg : ℕ) : ℕ := l.base+(pg-l.tbl)/sizeofPage*pgsize2mb

def addrToPage (flags : ℕ → Flags) (a : ℕ) : ℕ :=
  if (flags (l.addrToLgpage a)).shattered then addrToSmpage a else l.addrToLgpage a

def pageToAddr (flags : ℕ → Flags) (pg : ℕ) : ℕ :=
  if (flags pg).large then l.lgpageToAddr pg else smpageToAddr pg

/-- The start of large page `p`. -/
def start (p : ℕ) : ℕ := l.base+smpageSlab.pageToAddr p

/-- Item `i` that the slab of small pages takes from large page `p`. -/
def item (p i : ℕ) : ℕ := l.base+(smpageSlab.pageToAddr p+smpageSlab.offset+i*smpageSlab.size)

/-- The table is cleared; the page memory may have any content. -/
def init (flags : ℕ → Flags) : Sys where
  flags a := if l.tbl ≤ a ∧ a < l.tbl+l.nnuma*1024*sizeofPage then ⟨false,false⟩ else flags a
  idx _ := 0
  pages _ := []
  use _ := .unused
  small _ _ := false

/-- `lgpage_create`. -/
def create (s : Sys) (p : ℕ) : Sys :=
  { s with flags := update s.flags (l.lgpage p) ⟨true,false⟩ }

/-- `lgpage_alloc_on_node`. -/
def lgpageAlloc (s : Sys) (k : ℕ) : Option (Sys × ℕ) :=
  match s.pages k with
  | p::rest => some (l.create { s with pages := update s.pages k rest } p,p)
  | [] =>
    if s.idx k ≥ 1024 then none
    else some (l.create { s with idx := update s.idx k (s.idx k+1) } (k*1024+s.idx k),
      k*1024+s.idx k)

def lgpageFree (s : Sys) (p : ℕ) : Sys :=
  let k := addrToNumaNode (smpageSlab.pageToAddr p)
  { s with
    flags := update s.flags (l.lgpage p) ⟨false,false⟩
    pages := update s.pages k (p::s.pages k)
    use := update s.use p .unused }

/-- A write to the `n` bytes from `a` on. -/
def write (s : Sys) (a n : ℕ) (flags : ℕ → Flags) : Sys :=
  { s with flags := fun x => if a ≤ x ∧ x < a+n then flags x else s.flags x }

/-- The flags of the descriptor of a small page are set; they tell of none of the kinds. -/
def setSmall (s : Sys) (p i : ℕ) (b : Bool) : Sys :=
  { s with
    flags := update s.flags (addrToSmpage (l.item p i)) ⟨false,false⟩
    small := update s.small p (update (s.small p) i b) }

def step (s : Sys) : Event → Option Sys
  | .alloc k =>
    if k < l.nnuma then
      (l.lgpageAlloc s k).map fun r => { r.1 with use := update r.1.use r.2 .whole }
    else none
  | .shatter k =>
    if k < l.nnuma then
      (l.lgpageAlloc s k).map fun r =>
        write { r.1 with
          flags := update r.1.flags (l.lgpage r.2) ⟨true,true⟩
          use := update r.1.use r.2 .shattered } (l.start r.2) smpageMetaLen
            fun _ => ⟨false,false⟩
    else none
  | .free p => if s.use p = .whole then some (l.lgpageFree s p) else none
  | .unshatter p =>
    if s.use p = .shattered ∧ ∀ i < smpageSlab.nrElems, s.small p i = false then
      some (l.lgpageFree s p)
    else none
  | .smAlloc p i =>
    if s.use p = .shattered ∧ i < smpageSlab.nrElems ∧ s.small p i = false then
      some (l.setSmall s p i true)
    else none
  | .smFree p i => if s.small p i then some (l.setSmall s p i false) else none
  | .store p flags =>
    if s.use p = .whole then some (write s (l.start p) pgsize2mb flags) else none
  | .smStore p i flags =>
    if s.small p i then some (write s (l.item p i) pgsize4kb flags) else none

/-! ### Addresses -/

variable {l} {p p' i i' a : ℕ}

theorem start_eq (l : Layout) (p : ℕ) : l.start p = l.base+p*2097152 := rfl

theorem item_eq (l : Layout) (p i : ℕ) : l.item p i = l.base+p*2097152+32768+i*4096 := by
  change l.base+(p*2097152+32768+i*4096) = _
  omega

theorem lgpage_eq (l : Layout) (p : ℕ) : l.lgpage p = l.tbl+p*64 := rfl

theorem addrToLgpage_inside (h : l.start p ≤ a) (h' : a < l.start p+pgsize2mb) :
    l.addrToLgpage a = l.lgpage p := by
  rw [start_eq] at h h'
  simp only [pgsize2mb] at h'
  rw [addrToLgpage,lgpage_eq,lgpage_eq,pgsize2mb]
  omega

theorem lgpageToAddr_lgpage : l.lgpageToAddr (l.lgpage p) = l.start p := by
  rw [lgpageToAddr,lgpage_eq,start_eq,sizeofPage,pgsize2mb]
  omega

theorem addrToSmpage_inside (hi : i < smpageSlab.nrElems) (h : l.item p i ≤ a)
    (h' : a < l.item p i+pgsize4kb) : addrToSmpage a = l.start p+(8+i)*64 := by
  have hbase := l.aligned
  have hi : i < 504 := hi
  rw [item_eq] at h h'
  simp only [pgsize2mb,pgsize4kb] at h' hbase
  simp only [addrToSmpage,pgn,pgaddr2mb,start_eq,pgsize2mb,pgsize4kb,sizeofPage]
  omega

theorem smpage_eq (l : Layout) (p : ℕ) (hi : i < smpageSlab.nrElems) :
    addrToSmpage (l.item p i) = l.start p+(8+i)*64 :=
  addrToSmpage_inside hi (Nat.le_refl _) (Nat.lt_add_of_pos_right (by decide))

theorem smpageToAddr_smpage (hi : i < smpageSlab.nrElems) :
    smpageToAddr (l.start p+(8+i)*64) = l.item p i := by
  have hbase := l.aligned
  have hi : i < 504 := hi
  simp only [pgsize2mb] at hbase
  rw [start_eq,item_eq]
  simp only [smpageToAddr,pgaddr2mb,pgsize2mb,pgsize4kb,sizeofPage]
  omega

/-- The table does not reach into the page memory. -/
theorem lgpage_outside (hp : p < l.nnuma*1024) (hp' : p' < l.nnuma*1024) (h : l.start p ≤ a)
    (h' : a < l.start p+pgsize2mb) : a ≠ l.lgpage p' := by
  have hapart := l.apart
  rw [start_eq] at h h'
  rw [lgpage_eq]
  simp only [sizeofPage,lgpageNodeAddrLen,pgsize2mb] at hapart h'
  omega

theorem smpage_ne_lgpage (hp : p < l.nnuma*1024) (hp' : p' < l.nnuma*1024)
    (hi : i < smpageSlab.nrElems) : l.start p+(8+i)*64 ≠ l.lgpage p' := by
  have hi : i < 504 := hi
  exact lgpage_outside hp hp' (by omega) (by simp only [pgsize2mb]; omega)

theorem smpage_inj (hi : i < smpageSlab.nrElems) (hi' : i' < smpageSlab.nrElems)
    (h : l.start p+(8+i)*64 = l.start p'+(8+i')*64) : p = p' ∧ i = i' := by
  have hi : i < 504 := hi
  have hi' : i' < 504 := hi'
  rw [start_eq,start_eq] at h
  omega

theorem lgpage_inj (h : l.lgpage p = l.lgpage p') : p = p' := by
  rw [lgpage_eq,lgpage_eq] at h
  omega

/-! ### Steps -/

/-- What the flags say is what the pages are used for. -/
structure Inv (l : Layout) (s : Sys) : Prop where
  nodup : ∀ k, (s.pages k).Nodup
  listed : ∀ k, ∀ p ∈ s.pages k, s.use p = .unused ∧ p/1024 = k ∧ p%1024 < s.idx k
  later : ∀ p, s.idx (p/1024) ≤ p%1024 → s.use p = .unused
  used : ∀ p, s.use p ≠ .unused → p < l.nnuma*1024
  flags : ∀ p, s.use p ≠ .unused → s.flags (l.lgpage p) = (s.use p).flags
  small : ∀ p i, s.small p i = true → s.use p = .shattered ∧ i < smpageSlab.nrElems ∧
    (s.flags (l.start p+(8+i)*64)).large = false

variable {s s' : Sys} {k : ℕ}

/-- The flags of page `p` and its use change together. -/
theorem Inv.setUse (h : l.Inv s) {u : Use} (hp : p < l.nnuma*1024)
    (hsmall : ∀ i, s.small p i = false)
    (hs : s'.flags = update s.flags (l.lgpage p) u.flags ∧
      s'.use = update s.use p u ∧ s'.small = s.small)
    (hnodup : ∀ k, (s'.pages k).Nodup)
    (hlisted : ∀ k, ∀ q ∈ s'.pages k, s'.use q = .unused ∧ q/1024 = k ∧ q%1024 < s'.idx k)
    (hlater : ∀ q, s'.idx (q/1024) ≤ q%1024 → s'.use q = .unused) : l.Inv s' := by
  obtain ⟨hflags,huse,hsm⟩ := hs
  have hother : ∀ q, q ≠ p → s'.use q = s.use q := fun q hq => by
    rw [huse,update_of_ne hq]
  refine ⟨hnodup,hlisted,hlater,fun q hq => ?_,fun q hq => ?_,fun q i hi => ?_⟩
  · by_cases hqp : q = p
    · exact hqp ▸ hp
    · exact h.used q (hother q hqp ▸ hq)
  · by_cases hqp : q = p
    · rw [hflags,huse,hqp,update_self,update_self]
    · rw [hother q hqp] at hq ⊢
      rw [hflags,update_of_ne fun heq => hqp (lgpage_inj heq)]
      exact h.flags q hq
  · rw [hsm] at hi
    obtain ⟨hsh,hlt,hlarge⟩ := h.small q i hi
    have hqp : q ≠ p := by
      rintro rfl
      exact Bool.false_ne_true ((hsmall i).symm.trans hi)
    rw [hother q hqp,hflags,
      update_of_ne (smpage_ne_lgpage (h.used q (by simp [hsh])) hp hlt)]
    exact ⟨hsh,hlt,hlarge⟩

theorem lgpageAlloc_flags (hs : l.lgpageAlloc s k = some (s',p)) :
    s'.flags (l.lgpage p) = Use.whole.flags := by
  unfold lgpageAlloc at hs
  split at hs
  · cases hs
    exact update_self ..
  · obtain ⟨-,hs⟩ := ite_none_left_eq_some.mp hs
    cases hs
    exact update_self ..

theorem Inv.alloc (h : l.Inv s) (hk : k < l.nnuma) (hs : l.lgpageAlloc s k = some (s',p)) {u : Use} :
    l.Inv { s' with
      flags := update s'.flags (l.lgpage p) u.flags
      use := update s'.use p u } ∧ p < l.nnuma*1024 ∧ ∀ i, s'.small p i = false := by
  have hnodup := h.nodup
  have hlisted := h.listed
  have hlater := h.later
  have hnone : s.use p = .unused → ∀ i, s.small p i = false := fun hp i => by
    grind -linarith [h.small p i]
  unfold lgpageAlloc at hs
  split at hs
  · next q rest hpages =>
    cases hs
    have hq := hlisted k p (by simp [hpages])
    have hlt : p < l.nnuma*1024 := by omega
    refine ⟨h.setUse hlt (hnone hq.1) ⟨update_idem ..,rfl,rfl⟩ ?_ ?_ ?_,hlt,hnone hq.1⟩
    all_goals
      dsimp only [create]
      grind -linarith [update_apply]
  · obtain ⟨hroom,hs⟩ := ite_none_left_eq_some.mp hs
    cases hs
    have hp : s.use (k*1024+s.idx k) = .unused := hlater _ (by grind -linarith)
    have hlt : k*1024+s.idx k < l.nnuma*1024 := by omega
    refine ⟨h.setUse hlt (hnone hp) ⟨update_idem ..,rfl,rfl⟩ hnodup ?_ ?_,hlt,hnone hp⟩
    all_goals
      dsimp only [create]
      grind -linarith [update_apply]

theorem Inv.free (h : l.Inv s) (hp : s.use p ≠ .unused) (hsmall : ∀ i, s.small p i = false) :
    l.Inv (l.lgpageFree s p) := by
  have hnode : addrToNumaNode (smpageSlab.pageToAddr p) = p/1024 := by
    change p*2097152/2147483648 = p/1024
    omega
  have hnodup := h.nodup
  have hlisted := h.listed
  have hlater := h.later
  rw [lgpageFree,hnode]
  refine h.setUse (h.used p hp) hsmall ⟨rfl,rfl,rfl⟩ ?_ ?_ ?_
  all_goals
    dsimp only
    grind -linarith [update_apply]

theorem Inv.write (h : l.Inv s) {n : ℕ} {flags : ℕ → Flags} (hp : p < l.nnuma*1024)
    (hin : l.start p ≤ a ∧ a+n ≤ l.start p+pgsize2mb)
    (hmeta : ∀ i, s.small p i = true → l.start p+32768 ≤ a) : l.Inv (write s a n flags) := by
  refine ⟨h.nodup,h.listed,h.later,h.used,fun q hq => ?_,fun q i hi => ?_⟩
  · refine (if_neg fun hqa => ?_).trans (h.flags q hq)
    exact lgpage_outside hp (h.used q hq) (a:=l.lgpage q) (by omega) (by omega) rfl
  · obtain ⟨hsh,hlt,hflags⟩ := h.small q i hi
    refine ⟨hsh,hlt,?_⟩
    have hlt : i < 504 := hlt
    have hout : ¬(a ≤ l.start q+(8+i)*64 ∧ l.start q+(8+i)*64 < a+n) := by
      by_cases hq : q = p
      · subst hq
        have := hmeta i hi
        omega
      · simp only [start_eq,pgsize2mb] at hin ⊢
        omega
    simp only [Layout.write,if_neg hout]
    exact hflags

theorem Inv.setSmall (h : l.Inv s) (hp : s.use p = .shattered) (hi : i < smpageSlab.nrElems)
    (b : Bool) : l.Inv (l.setSmall s p i b) := by
  rw [Layout.setSmall,smpage_eq l p hi]
  refine ⟨h.nodup,h.listed,h.later,h.used,fun q hq => ?_,fun q j hj => ?_⟩
  · have hne := smpage_ne_lgpage (h.used p (by simp [hp])) (h.used q hq) hi
    exact (update_of_ne hne.symm ..).trans (h.flags q hq)
  · by_cases hqj : q = p ∧ j = i
    · obtain ⟨rfl,rfl⟩ := hqj
      exact ⟨hp,hi,by simp⟩
    · have hold : s.small q j = true := by
        by_cases hq : q = p <;> simp_all [update_apply]
      obtain ⟨hsh,hlt,hlarge⟩ := h.small q j hold
      refine ⟨hsh,hlt,?_⟩
      simpa only [update_of_ne fun heq => hqj (smpage_inj hlt hi heq)] using hlarge

theorem step_inv {e : Event} (h : l.Inv s) (hs : l.step s e = some s') : l.Inv s' := by
  cases e with
  | alloc k =>
    obtain ⟨hk,hs⟩ := ite_none_right_eq_some.mp hs
    obtain ⟨⟨t,p⟩,ht,rfl⟩ := map_eq_some_iff.mp hs
    have hinv := (h.alloc hk ht (u:=.whole)).1
    rwa [update_eq_self_iff.mpr (lgpageAlloc_flags ht).symm] at hinv
  | shatter k =>
    obtain ⟨hk,hs⟩ := ite_none_right_eq_some.mp hs
    obtain ⟨⟨t,p⟩,ht,rfl⟩ := map_eq_some_iff.mp hs
    obtain ⟨hinv,hp,hsmall⟩ := h.alloc hk ht (u:=.shattered)
    refine hinv.write hp ⟨Nat.le_refl _,Nat.add_le_add_left (by decide) _⟩ fun i hi => ?_
    exact absurd (hi.symm.trans (hsmall i)) (by simp)
  | free p =>
    obtain ⟨hp,hs⟩ := ite_none_right_eq_some.mp hs
    cases hs
    refine h.free (by simp [hp]) fun i => ?_
    cases hi : s.small p i with
    | false => rfl
    | true => simp [(h.small p i hi).1] at hp
  | unshatter p =>
    obtain ⟨⟨hp,hnone⟩,hs⟩ := ite_none_right_eq_some.mp hs
    cases hs
    refine h.free (by simp [hp]) fun i => ?_
    cases hi : s.small p i with
    | false => rfl
    | true => exact absurd ((hnone i (h.small p i hi).2.1).symm.trans hi) (by simp)
  | smAlloc p i =>
    obtain ⟨⟨hp,hi,-⟩,hs⟩ := ite_none_right_eq_some.mp hs
    cases hs
    exact h.setSmall hp hi true
  | smFree p i =>
    obtain ⟨hi,hs⟩ := ite_none_right_eq_some.mp hs
    cases hs
    exact h.setSmall (h.small p i hi).1 (h.small p i hi).2.1 false
  | store p flags =>
    obtain ⟨hp,hs⟩ := ite_none_right_eq_some.mp hs
    cases hs
    refine h.write (h.used p (by simp [hp])) ⟨Nat.le_refl _,Nat.le_refl _⟩ fun i hi => ?_
    simp [(h.small p i hi).1] at hp
  | smStore p i flags =>
    obtain ⟨hi,hs⟩ := ite_none_right_eq_some.mp hs
    cases hs
    obtain ⟨hsh,hlt,-⟩ := h.small p i hi
    have hlt : i < 504 := hlt
    have hitem := item_eq l p i
    rw [← start_eq] at hitem
    exact h.write (h.used p (by simp [hsh])) (by simp only [pgsize4kb,pgsize2mb]; omega)
      fun _ _ => by omega

theorem inv_init (flags : ℕ → Flags) : l.Inv (l.init flags) :=
  ⟨fun _ => List.nodup_nil,by simp [init],fun _ _ => rfl,fun _ h => absurd rfl h,
    fun _ h => absurd rfl h,nofun⟩

end Layout

open Layout

/-- The descriptors of pages that are handed out are found from all addresses in their pages and
lead back to them; different pages have different ones; those of small pages lie in the part of a
large page that is not handed out. -/
theorem page_map_round_trip (l : Layout) {flags : ℕ → Flags} {es : List Event} {s : Sys}
    (h : Machine.run l.step (l.init flags) es = some s) :
    (∀ p, s.use p = .whole → ∀ a, l.start p ≤ a → a < l.start p+pgsize2mb →
      l.addrToPage s.flags a = l.lgpage p ∧ l.pageToAddr s.flags (l.lgpage p) = l.start p) ∧
    (∀ p i, s.small p i = true → ∀ a, l.item p i ≤ a → a < l.item p i+pgsize4kb →
      l.addrToPage s.flags a = addrToSmpage (l.item p i) ∧
      l.pageToAddr s.flags (addrToSmpage (l.item p i)) = l.item p i) ∧
    (∀ p p', l.lgpage p = l.lgpage p' → p = p') ∧
    (∀ p i p' i', s.small p i = true → s.small p' i' = true →
      addrToSmpage (l.item p i) = addrToSmpage (l.item p' i') → p = p' ∧ i = i') ∧
    (∀ p p' i, s.use p ≠ .unused → s.small p' i = true → l.lgpage p ≠ addrToSmpage (l.item p' i)) ∧
    ∀ p i, s.small p i = true → l.start p ≤ addrToSmpage (l.item p i) ∧
      addrToSmpage (l.item p i)+sizeofPage ≤ l.start p+smpageMetaLen ∧
      ∀ p' i', s.small p' i' = true →
        l.item p' i'+pgsize4kb ≤ l.start p ∨ l.start p+smpageMetaLen ≤ l.item p' i' := by
  have hinv : l.Inv s := Machine.run_keeps step_inv (inv_init flags) h
  have hsmall := hinv.small
  refine ⟨fun p hp a ha ha' => ?_,fun p i hi a ha ha' => ?_,fun p p' heq => ?_,
    fun p i p' i' hi hi' heq => ?_,fun p p' i hp hi => ?_,fun p i hi => ?_⟩
  · rw [addrToPage,pageToAddr,addrToLgpage_inside ha ha',hinv.flags p (by simp [hp]),hp]
    exact ⟨rfl,lgpageToAddr_lgpage⟩
  · obtain ⟨hsh,hlt,hlarge⟩ := hsmall p i hi
    have hlt' : i < 504 := hlt
    have hitem := item_eq l p i
    rw [← start_eq] at hitem
    have hin : l.addrToLgpage a = l.lgpage p :=
      addrToLgpage_inside (by omega) (by simp only [pgsize4kb,pgsize2mb] at ha' ⊢; omega)
    rw [addrToPage,hin,hinv.flags p (by simp [hsh]),hsh,smpage_eq l p hlt,pageToAddr,hlarge]
    exact ⟨addrToSmpage_inside hlt ha ha',smpageToAddr_smpage hlt⟩
  · exact lgpage_inj heq
  · have hlt := (hsmall p i hi).2.1
    have hlt' := (hsmall p' i' hi').2.1
    rw [smpage_eq l p hlt,smpage_eq l p' hlt'] at heq
    exact smpage_inj hlt hlt' heq
  · obtain ⟨hsh,hlt,-⟩ := hsmall p' i hi
    rw [smpage_eq l p' hlt]
    exact (smpage_ne_lgpage (hinv.used p' (by simp [hsh])) (hinv.used p hp) hlt).symm
  · have hlt : i < 504 := (hsmall p i hi).2.1
    rw [smpage_eq l p hlt]
    refine ⟨by omega,?_,fun p' i' hi' => ?_⟩
    · change _+64 ≤ _+32768
      omega
    · have hlt' : i' < 504 := (hsmall p' i' hi').2.1
      rw [item_eq,start_eq]
      change _+4096 ≤ _ ∨ _+32768 ≤ _
      omega

/-- Page memory at 1 GB for two nodes, and the table at 64 KB. -/
def sample : Layout := ⟨2,1073741824,65536,by decide,by decide⟩

theorem page_map_round_trip_sample :
    ∃ s ∈ Machine.run sample.step (sample.init fun _ => ⟨true,true⟩) [.alloc 1,.shatter 1,.smAlloc 1025 3],
      sample.addrToPage s.flags (sample.start 1024+5000) = sample.lgpage 1024 ∧
      sample.addrToPage s.flags (sample.item 1025 3+77) = addrToSmpage (sample.item 1025 3) := by
  obtain ⟨s,hs,hwhole,hsmall⟩ : ∃ s ∈ Machine.run sample.step (sample.init fun _ => ⟨true,true⟩)
      [.alloc 1,.shatter 1,.smAlloc 1025 3], s.use 1024 = .whole ∧ s.small 1025 3 = true := by
    decide +kernel
  have h := page_map_round_trip sample hs
  exact ⟨s,hs,(h.1 1024 hwhole _ (by decide) (by decide)).1,
    (h.2.1 1025 3 hsmall _ (by decide) (by decide)).1⟩

end PageMap
end Vessel
