import Vessel.Slab

/-! The two slabs that `slab_init` sets up by itself, while items are taken from them.  Their sizes,
offsets and numbers of items do not come from `slab_create`. -/
namespace Vessel

open Function
namespace Slab

/-- What `__slab_early_create` sets in every node. -/
structure Early extends Config where
  offset : ℕ

def sizeofSlabNode : ℕ := 88

def sizeofPage : ℕ := 64

/-- `sizeof(struct tcache_hdr)`. -/
def tcacheMinItemSize : BitVec 64 := 16

def slabFlagPages : BitVec 32 := 4

def smpageMetaLen : ℕ := pgsize2mb/pgsize4kb*sizeofPage

def nodeSlab : Early where
  size := (alignUp (BitVec.ofNat 64 sizeofSlabNode) tcacheMinItemSize).toNat
  flags := 0
  nrElems := pgsize4kb/sizeofSlabNode
  offset := 0

def smpageSlab : Early where
  size := pgsize4kb
  flags := slabFlagLgpage ||| slabFlagPages
  nrElems := (pgsize2mb-smpageMetaLen)/pgsize4kb
  offset := smpageMetaLen

namespace Early

/-- `__slab_node_get_page` for a node with an offset. -/
def getPage (c : Early) (s : Sys) (k : ℕ) (fresh : Option ℕ) : Option Sys :=
  let n := s.node k
  match n.partialList with
  | pg::rest => some (s.setNode k { n with partialList := rest,curPg := some pg })
  | [] => match fresh with
    | none => some (s.setNode k { n with curPg := none })
    | some pg =>
      if s.owned pg = false ∧ c.nodeOf pg = k then
        some ((s.newPage c.toConfig k pg).setNode k { n with pgOff := c.offset,curPg := some pg })
      else none

/-- `__slab_node_alloc`. -/
def alloc (c : Early) (s : Sys) (k : ℕ) (fresh : Option ℕ) : Option (Sys × Option ℕ) :=
  let n := s.node k
  match n.curPg with
  | none => (c.getPage s k fresh).map fun s => s.carve c.toConfig k
  | some pg =>
    if (s.page pg).itemCount = 0 then
      (c.getPage (s.setNode k { n with fullList := pg::n.fullList }) k fresh).map fun s =>
        s.carve c.toConfig k
    else some (s.carve c.toConfig k)

/-- The allocations `es`, each on a node and with what the page allocator returns if it is asked. -/
def run (c : Early) (nextHdr : ℕ → Option ℕ) (page : ℕ → Page) (es : List (ℕ × Option ℕ)) :
    Option Sys :=
  Machine.run (fun s e => (c.alloc s e.1 e.2).map Prod.fst) (.init nextHdr page) es

/-- The item at `x` is inside of the page and behind the offset. -/
def Inside (c : Early) (pg x : ℕ) : Prop :=
  c.pageToAddr pg+c.offset ≤ x ∧ x+c.size ≤ c.pageToAddr pg+c.pgsize

/-- A node from which items were only taken: `i` items of its current page. -/
structure Taken (c : Early) (s : Sys) (k : ℕ) : Prop where
  noPartial : (s.node k).partialList = []
  cur : ∀ pg, (s.node k).curPg = some pg → s.owned pg = true ∧ c.nodeOf pg = k ∧
    (s.page pg).next = none ∧ ∃ i ≤ c.nrElems, (s.page pg).itemCount = c.nrElems-i ∧
      (s.node k).pgOff = c.offset+i*c.size

variable {c : Early} {s s' : Sys} {k pg x : ℕ} {fresh : Option ℕ}

theorem Taken.congr (h : c.Taken s k) (hnode : s'.node k = s.node k)
    (hpage : ∀ pg, (s.node k).curPg = some pg → s'.page pg = s.page pg ∧ s'.owned pg = s.owned pg) :
    c.Taken s' k where
  noPartial := hnode ▸ h.noPartial
  cur pg hpg := by
    rw [hnode] at hpg ⊢
    rw [(hpage pg hpg).1,(hpage pg hpg).2]
    exact h.cur pg hpg

/-- The node `k` has a current page with items left. -/
def Ready (c : Early) (s : Sys) (k : ℕ) : Prop :=
  (∀ k', c.Taken s k') ∧ ∀ pg, (s.node k).curPg = some pg → (s.page pg).itemCount ≠ 0

theorem getPage_ready (hpos : 0 < c.nrElems) (h : ∀ k', c.Taken s k')
    (hs : c.getPage s k fresh = some s') : c.Ready s' k := by
  simp only [getPage,(h k).noPartial] at hs
  cases fresh with
  | none =>
    cases hs
    refine ⟨fun k' => ?_,by simp [Sys.setNode]⟩
    by_cases hk : k' = k
    · subst hk
      exact ⟨by simp [Sys.setNode],by simp [Sys.setNode]⟩
    · exact (h k').congr (update_of_ne hk ..) fun _ _ => ⟨rfl,rfl⟩
  | some pg =>
    obtain ⟨⟨hfree,hnode⟩,hs⟩ := Option.ite_none_right_eq_some.mp hs
    cases hs
    refine ⟨fun k' => ?_,?_⟩
    · by_cases hk : k' = k
      · subst hk
        refine ⟨by simp [Sys.setNode],?_⟩
        simp only [Sys.setNode,Sys.newPage,update_self,Option.some.injEq]
        rintro _ rfl
        exact ⟨by simp,hnode,by simp,0,by simp⟩
      · refine (h k').congr (by simp [Sys.setNode,Sys.newPage,hk]) fun pg' hpg' => ?_
        have hne : pg' ≠ pg := by
          rintro rfl
          exact Bool.false_ne_true (hfree.symm.trans ((h k').cur pg' hpg').1)
        simp [Sys.setNode,Sys.newPage,hne]
    · simp only [Sys.setNode,Sys.newPage,update_self,Option.some.injEq]
      rintro _ rfl
      simpa using Nat.pos_iff_ne_zero.mp hpos

theorem carve_taken (h : c.Ready s k) :
    (∀ k', c.Taken (s.carve c.toConfig k).1 k') ∧ ∀ x, (s.carve c.toConfig k).2 = some x →
      ∃ pg, ((s.carve c.toConfig k).1.node k).curPg = some pg ∧
        ∃ i, i+1+((s.carve c.toConfig k).1.page pg).itemCount = c.nrElems ∧
          x = c.pageToAddr pg+c.offset+i*c.size := by
  cases hcur : (s.node k).curPg with
  | none => simpa [Sys.carve,hcur] using h.1
  | some pg =>
    obtain ⟨hown,hnode,hnext,i,hi,hcount,hoff⟩ := (h.1 k).cur pg hcur
    have hleft := h.2 pg hcur
    simp only [Sys.carve,hcur,hnext,Sys.cutItem,Sys.setNode]
    refine ⟨fun k' => ?_,?_⟩
    · by_cases hk : k' = k
      · subst hk
        refine ⟨by simpa using (h.1 k').noPartial,?_⟩
        simp only [update_self,Option.some.injEq]
        rintro _ rfl
        refine ⟨hown,hnode,by simp,i+1,by omega,by simp; omega,?_⟩
        rw [hoff,Nat.succ_mul,Nat.add_assoc]
      · refine (h.1 k').congr (update_of_ne hk ..) fun pg' hpg' => ⟨?_,rfl⟩
        refine update_of_ne ?_ ..
        rintro rfl
        exact hk (((h.1 k').cur pg' hpg').2.1.symm.trans hnode)
    · simp only [update_self,Option.some.injEq]
      rintro x rfl
      refine ⟨pg,rfl,i,by simp; omega,?_⟩
      rw [hoff,Nat.add_assoc]

theorem alloc_taken {r : Option ℕ} (hpos : 0 < c.nrElems) (h : ∀ k', c.Taken s k')
    (hs : c.alloc s k fresh = some (s',r)) : (∀ k', c.Taken s' k') ∧ ∀ x, r = some x →
      ∃ pg, (s'.node k).curPg = some pg ∧ ∃ i, i+1+(s'.page pg).itemCount = c.nrElems ∧
        x = c.pageToAddr pg+c.offset+i*c.size := by
  simp only [alloc] at hs
  split at hs
  · obtain ⟨u,hu,hs⟩ := Option.map_eq_some_iff.mp hs
    have hcarve := carve_taken (getPage_ready hpos h hu)
    rwa [hs] at hcarve
  · next pg hcur =>
    split at hs
    · obtain ⟨u,hu,hs⟩ := Option.map_eq_some_iff.mp hs
      have hset : ∀ k', c.Taken (s.setNode k { s.node k with fullList := pg::(s.node k).fullList }) k' := by
        intro k'
        by_cases hk : k' = k
        · subst hk
          exact ⟨by simpa [Sys.setNode] using (h k').noPartial,by simpa [Sys.setNode] using (h k').cur⟩
        · exact (h k').congr (update_of_ne hk ..) fun _ _ => ⟨rfl,rfl⟩
      have hcarve := carve_taken (getPage_ready hpos hset hu)
      rwa [hs] at hcarve
    · next hleft =>
      have hready : c.Ready s k := by
        refine ⟨h,fun pg' hpg' => ?_⟩
        obtain rfl := Option.some.inj (hcur.symm.trans hpg')
        exact hleft
      have hcarve := carve_taken hready
      rwa [Option.some.inj hs] at hcarve

theorem run_taken {nextHdr : ℕ → Option ℕ} {page : ℕ → Page} {es : List (ℕ × Option ℕ)}
    (hpos : 0 < c.nrElems) (hs : c.run nextHdr page es = some s) : ∀ k, c.Taken s k := by
  refine Machine.run_keeps (P:=fun s => ∀ k, c.Taken s k) ?_ ?_ hs
  · intro s t e h hstep
    obtain ⟨⟨u,r⟩,hu,rfl⟩ := Option.map_eq_some_iff.mp hstep
    exact (alloc_taken hpos h hu).1
  · exact fun k => ⟨rfl,fun pg h => nomatch h⟩

end Early

open Early

/-- Whatever is taken from the two slabs: an item of the page slab is inside its page; an item of
the node slab is inside its page just if it is one of the first 42 items of that page. -/
theorem bootstrapped_items_inside {nextHdr : ℕ → Option ℕ} {page : ℕ → Page}
    {es : List (ℕ × Option ℕ)} {s s' : Sys} {k x : ℕ} {fresh : Option ℕ} :
    (smpageSlab.run nextHdr page es = some s → smpageSlab.alloc s k fresh = some (s',some x) →
      ∃ pg, (s'.node k).curPg = some pg ∧ smpageSlab.Inside pg x) ∧
    (nodeSlab.run nextHdr page es = some s → nodeSlab.alloc s k fresh = some (s',some x) →
      ∃ pg, (s'.node k).curPg = some pg ∧
        (nodeSlab.Inside pg x ↔ nodeSlab.nrElems-(s'.page pg).itemCount ≤ 42)) := by
  refine ⟨fun hs ha => ?_,fun hs ha => ?_⟩
  · have hpos : 0 < smpageSlab.nrElems := by decide
    obtain ⟨pg,hpg,i,hi,rfl⟩ := (alloc_taken hpos (run_taken hpos hs) ha).2 x rfl
    have hnr : smpageSlab.nrElems = 504 := rfl
    have hfit : smpageSlab.offset+504*smpageSlab.size = smpageSlab.pgsize := by decide
    have hsize : smpageSlab.size = 4096 := rfl
    refine ⟨pg,hpg,by omega,?_⟩
    rw [hsize] at hfit ⊢
    omega
  · have hpos : 0 < nodeSlab.nrElems := by decide
    obtain ⟨pg,hpg,i,hi,rfl⟩ := (alloc_taken hpos (run_taken hpos hs) ha).2 x rfl
    have hsize : nodeSlab.size = 96 ∧ nodeSlab.pgsize = 4096 ∧ nodeSlab.offset = 0 := by decide
    refine ⟨pg,hpg,?_⟩
    rw [Inside,hsize.1,hsize.2.1,hsize.2.2]
    omega

/-- The third item of a page of the one slab, and the 42nd of a page of the other. -/
theorem bootstrapped_items_inside_later :
    smpageSlab.Inside 7 (7*pgsize2mb+smpageMetaLen+2*4096) ∧ nodeSlab.Inside 5 (5*4096+41*96) := by
  have h : ∃ s ∈ smpageSlab.run (fun _ => none) (fun _ => ⟨none,0⟩) (List.replicate 2 (0,some 7)),
      ∃ r ∈ smpageSlab.alloc s 0 none, r.2 = some (7*pgsize2mb+smpageMetaLen+2*4096) ∧
        (r.1.node 0).curPg = some 7 := by decide +kernel
  have h' : ∃ s ∈ nodeSlab.run (fun _ => none) (fun _ => ⟨none,0⟩) (List.replicate 41 (0,some 5)),
      ∃ r ∈ nodeSlab.alloc s 0 none, r.2 = some (5*4096+41*96) ∧
        (r.1.node 0).curPg = some 5 ∧ nodeSlab.nrElems-(r.1.page 5).itemCount ≤ 42 := by
    decide +kernel
  obtain ⟨s,hs,⟨t,_⟩,ha,rfl,hcur⟩ := h
  obtain ⟨s',hs',⟨t',_⟩,ha',rfl,hcur',hfew⟩ := h'
  obtain ⟨pg,hpg,hin⟩ := bootstrapped_items_inside.1 hs ha
  obtain ⟨pg',hpg',hiff⟩ := bootstrapped_items_inside.2 hs' ha'
  obtain rfl := Option.some.inj (hcur.symm.trans hpg)
  obtain rfl := Option.some.inj (hcur'.symm.trans hpg')
  exact ⟨hin,hiff.mpr hfew⟩

/-- The 43rd item of a page, of the 46 that the slab declares. -/
theorem nodeSlab_runs_over :
    ∃ s s', nodeSlab.run (fun _ => none) (fun _ => ⟨none,0⟩) (List.replicate 42 (0,some 5)) = some s ∧
      nodeSlab.alloc s 0 none = some (s',some (5*4096+42*96)) ∧ (s'.node 0).curPg = some 5 ∧
      nodeSlab.nrElems = 46 ∧ ¬nodeSlab.Inside 5 (5*4096+42*96) := by
  have h : ∃ s ∈ nodeSlab.run (fun _ => none) (fun _ => ⟨none,0⟩) (List.replicate 42 (0,some 5)),
      ∃ r ∈ nodeSlab.alloc s 0 none, r.2 = some (5*4096+42*96) ∧ (r.1.node 0).curPg = some 5 := by
    decide +kernel
  obtain ⟨s,hs,⟨s',_⟩,ha,rfl,hcur⟩ := h
  exact ⟨s,s',hs,ha,hcur,by decide,by unfold Inside; decide⟩

end Slab
end Vessel
