import Mathlib.Data.List.Perm.Subperm
import Vessel.Slab

/-! What every sequence of allocations and frees keeps: the free items of a page are threaded from the
page, its item count is their number and that of the items not cut yet, and every page is on one
list of its node. -/
namespace Vessel
namespace Slab

open Linked Function Option

/-- The item `i` of a page. -/
def Config.item (c : Config) (pg i : ℕ) : ℕ := c.pageToAddr pg+i*c.size

/-- How many items of a page have been cut.  Only the current page may have less than all. -/
def Sys.carved (s : Sys) (c : Config) (pg : ℕ) : ℕ :=
  if (s.node (c.nodeOf pg)).curPg = some pg then (s.node (c.nodeOf pg)).pgOff/c.size else c.nrElems

/-- The items of a page that have been cut are its free ones `l` and its live ones. -/
structure PageOk (c : Config) (s : Sys) (pg : ℕ) (l : List ℕ) : Prop where
  chain : Chain s.nextHdr (s.page pg).next l
  items : (l++s.live.filter fun x => c.addrToPage x = pg).Perm
    ((List.range (s.carved c pg)).map (c.item pg))
  count : (s.page pg).itemCount = l.length+(c.nrElems-s.carved c pg)

/-- What is so of the pages; `free` gives their free items. -/
structure Pages (c : Config) (s : Sys) (free : ℕ → List ℕ) : Prop where
  page : ∀ pg, s.owned pg = true → PageOk c s pg (free pg)
  live : ∀ x ∈ s.live, s.owned (c.addrToPage x) = true
  off : ∀ k, ∃ m ≤ c.nrElems, (s.node k).pgOff = m*c.size

/-- The item count of a page that is not the current one tells the list that it is on. -/
@[grind cases] structure Listed (c : Config) (s : Sys) (k pg : ℕ) : Prop where
  cur : (s.node k).curPg = some pg → s.owned pg = true ∧ c.nodeOf pg = k
  full : pg ∈ (s.node k).fullList ↔ s.owned pg = true ∧ c.nodeOf pg = k ∧
    (s.node k).curPg ≠ some pg ∧ (s.page pg).itemCount < slabPartialThresh
  some_free : pg ∈ (s.node k).partialList ↔ s.owned pg = true ∧ c.nodeOf pg = k ∧
    (s.node k).curPg ≠ some pg ∧ slabPartialThresh ≤ (s.page pg).itemCount
  room : s.owned pg = true → c.nodeOf pg = k → (s.node k).curPg ≠ some pg →
    (s.page pg).itemCount < c.nrElems

/-- What is so of a node.  Without a current page, a page has been cut as a whole. -/
@[grind cases] structure Node.Ok (c : Config) (n : Node) : Prop where
  cut : n.curPg = none → n.pgOff = c.nrElems*c.size ∨ (n.fullList = [] ∧ n.partialList = [])
  full : n.fullList.Nodup
  some_free : n.partialList.Nodup

structure Lists (c : Config) (s : Sys) : Prop where
  node : ∀ k, (s.node k).Ok c
  listed : ∀ k pg, Listed c s k pg

structure Inv (c : Config) (s : Sys) : Prop where
  pages : ∃ free, Pages c s free
  lists : Lists c s

variable {c : Config} {s s' : Sys} {k pg pg' i i' x : ℕ} {l : List ℕ} {free : ℕ → List ℕ}

/-! ### Addresses -/

namespace Config.Fits

theorem nrElems_pos (hc : c.Fits) : 0 < c.nrElems := by
  have := hc.thresh
  simp only [slabPartialThresh] at this
  omega

theorem item_lt (hc : c.Fits) (hi : i < c.nrElems) : i*c.size+c.size ≤ c.pgsize := by
  have hle : (i+1)*c.size ≤ c.nrElems*c.size := Nat.mul_le_mul_right _ hi
  rw [Nat.succ_mul] at hle
  exact Nat.le_trans hle hc.le

theorem pgsize_pos (hc : c.Fits) : 0 < c.pgsize := by
  have := hc.item_lt hc.nrElems_pos
  have := hc.pos
  omega

variable (pg) in
theorem addrToPage_item (hc : c.Fits) (hi : i < c.nrElems) : c.addrToPage (c.item pg i) = pg := by
  have hlt := hc.item_lt hi
  have hpos := hc.pos
  rw [addrToPage,item,pageToAddr,Nat.add_comm,Nat.add_mul_div_right _ _ hc.pgsize_pos,
    Nat.div_eq_of_lt (by omega),Nat.zero_add]

/-- All items of a page are on the node of the page. -/
theorem addrToNumaNode_eq (hc : c.Fits) (x : ℕ) : addrToNumaNode x = c.nodeOf (c.addrToPage x) := by
  obtain ⟨q,hq⟩ : c.pgsize ∣ lgpageNodeAddrLen := by
    rw [pgsize]
    split
    · exact Nat.dvd_mul_left ..
    · exact ⟨1024*512,rfl⟩
  rw [nodeOf,addrToNumaNode,addrToNumaNode,hq,← Nat.div_div_eq_div_mul,← Nat.div_div_eq_div_mul,
    pageToAddr,Nat.mul_div_cancel _ hc.pgsize_pos,addrToPage]

theorem item_inj (hc : c.Fits) (hi : i < c.nrElems) (hi' : i' < c.nrElems)
    (h : c.item pg i = c.item pg' i') : pg = pg' ∧ i = i' := by
  have hpg := hc.addrToPage_item pg hi
  rw [h,hc.addrToPage_item pg' hi'] at hpg
  subst hpg
  exact ⟨rfl,Nat.eq_of_mul_eq_mul_right hc.pos (Nat.add_left_cancel h)⟩

end Config.Fits

/-! ### What the invariant says of a page -/

theorem PageOk.congr (h : PageOk c s pg l) (hpage : s'.page pg = s.page pg)
    (hcarved : s'.carved c pg = s.carved c pg)
    (hlive : (s'.live.filter fun x => c.addrToPage x = pg).Perm
      (s.live.filter fun x => c.addrToPage x = pg))
    (hnext : ∀ x ∈ l, s'.nextHdr x = s.nextHdr x) : PageOk c s' pg l where
  chain := by
    rw [hpage]
    exact h.chain.congr hnext
  items := by
    rw [hcarved]
    exact (hlive.append_left l).trans h.items
  count := by
    rw [hpage,hcarved]
    exact h.count

attribute [local grind =] update_apply

namespace Pages

theorem carved_le (h : Pages c s free) (hc : c.Fits) (pg : ℕ) : s.carved c pg ≤ c.nrElems := by
  rw [Sys.carved]
  split
  · obtain ⟨m,hm,hoff⟩ := h.off (c.nodeOf pg)
    rw [hoff,Nat.mul_div_cancel _ hc.pos]
    exact hm
  · exact Nat.le_refl _

theorem nodup (h : Pages c s free) (hc : c.Fits) (hpg : PageOk c s pg l) :
    (l++s.live.filter fun x => c.addrToPage x = pg).Nodup := by
  refine hpg.items.nodup_iff.mpr (List.Nodup.map_on (fun i hi j hj heq => ?_) List.nodup_range)
  have hle := h.carved_le hc pg
  rw [List.mem_range] at hi hj
  exact (hc.item_inj (by omega) (by omega) heq).2

theorem home (h : Pages c s free) (hc : c.Fits) (hpg : PageOk c s pg l) (hx : x ∈ l) :
    c.addrToPage x = pg := by
  obtain ⟨i,hi,rfl⟩ := List.mem_map.mp (hpg.items.mem_iff.mp (List.mem_append_left _ hx))
  exact hc.addrToPage_item pg (Nat.lt_of_lt_of_le (List.mem_range.mp hi) (h.carved_le hc pg))

theorem not_free (h : Pages c s free) (hc : c.Fits) (hpg : PageOk c s pg l) (hx : x ∈ s.live) :
    x ∉ l := by
  intro hin
  refine List.disjoint_of_nodup_append (h.nodup hc hpg) hin (List.mem_filter.mpr ⟨hx,?_⟩)
  exact decide_eq_true (h.home hc hpg hin)

theorem exists_item (h : Pages c s free) (hc : c.Fits) (hx : x ∈ s.live) :
    ∃ pg, ∃ i < c.nrElems, s.owned pg = true ∧ x = c.item pg i := by
  have hpg := h.page _ (h.live x hx)
  have hmem : x ∈ free (c.addrToPage x)++s.live.filter fun y => c.addrToPage y = c.addrToPage x :=
    List.mem_append_right _ (List.mem_filter.mpr ⟨hx,decide_eq_true rfl⟩)
  obtain ⟨i,hi,heq⟩ := List.mem_map.mp (hpg.items.mem_iff.mp hmem)
  exact ⟨_,i,Nat.lt_of_lt_of_le (List.mem_range.mp hi) (h.carved_le hc _),h.live x hx,heq.symm⟩

theorem live_nodup (h : Pages c s free) (hc : c.Fits) : s.live.Nodup := by
  rw [List.nodup_iff_count_le_one]
  intro x
  by_cases hx : x ∈ s.live
  · have hpg := h.page _ (h.live x hx)
    have hnodup := (h.nodup hc hpg).of_append_right
    rw [← List.count_filter (p:=fun y => c.addrToPage y = c.addrToPage x) (decide_eq_true rfl)]
    exact List.nodup_iff_count_le_one.mp hnodup x
  · rw [List.count_eq_zero_of_not_mem hx]
    exact Nat.zero_le 1

theorem itemCount_add (h : Pages c s free) (hc : c.Fits) (howned : s.owned pg = true) :
    (s.page pg).itemCount+(s.live.filter fun x => c.addrToPage x = pg).length = c.nrElems := by
  have hpg := h.page pg howned
  have hlen := hpg.items.length_eq
  have := hpg.count
  have := h.carved_le hc pg
  rw [List.length_append,List.length_map,List.length_range] at hlen
  omega

theorem not_live (h : Pages c s free) (hc : c.Fits) (howned : s.owned pg = true)
    (hcount : (s.page pg).itemCount = c.nrElems) : ∀ x ∈ s.live, c.addrToPage x ≠ pg := by
  have hadd := h.itemCount_add hc howned
  have hzero : (s.live.filter fun x => c.addrToPage x = pg).length = 0 := by omega
  rw [List.length_eq_zero_iff,List.filter_eq_nil_iff] at hzero
  simpa using hzero

theorem carved_of_zero (h : Pages c s free) (hc : c.Fits) (howned : s.owned pg = true)
    (hzero : (s.page pg).itemCount = 0) : s.carved c pg = c.nrElems := by
  have hpg := h.page pg howned
  have := hpg.count
  have := h.carved_le hc pg
  omega

/-! ### The steps -/

theorem touch (h : Pages c s free) (pg : ℕ) (hpg : PageOk c s' pg l)
    (hpage : ∀ pg', pg' ≠ pg → s'.page pg' = s.page pg')
    (hcarved : ∀ pg', pg' ≠ pg → s'.carved c pg' = s.carved c pg')
    (hfilter : ∀ pg', pg' ≠ pg → (s'.live.filter fun x => c.addrToPage x = pg').Perm
      (s.live.filter fun x => c.addrToPage x = pg'))
    (hnext : ∀ pg', pg' ≠ pg → s.owned pg' = true → ∀ x ∈ free pg', s'.nextHdr x = s.nextHdr x)
    (hown : ∀ pg', pg' ≠ pg → s'.owned pg' = true → s.owned pg' = true)
    (hlive : ∀ x ∈ s'.live, s'.owned (c.addrToPage x) = true)
    (hoff : ∀ k, ∃ m ≤ c.nrElems, (s'.node k).pgOff = m*c.size) :
    Pages c s' (update free pg l) where
  page pg' howned := by
    by_cases hne : pg' = pg
    · rwa [hne,update_self]
    · have howned' := hown pg' hne howned
      rw [update_of_ne hne]
      exact (h.page pg' howned').congr (hpage pg' hne) (hcarved pg' hne) (hfilter pg' hne)
        (hnext pg' hne howned')
  live := hlive
  off := hoff

theorem setNode {n : Node} (h : Pages c s free) (hoff : ∃ m ≤ c.nrElems, n.pgOff = m*c.size)
    (hcarved : ∀ pg, s.owned pg = true → (s.setNode k n).carved c pg = s.carved c pg) :
    Pages c (s.setNode k n) free where
  page pg howned := (h.page pg howned).congr rfl (hcarved pg howned) (.refl _) fun _ _ => rfl
  live := h.live
  off := (forall_update_iff s.node fun _ n => ∃ m ≤ c.nrElems, n.pgOff = m*c.size).mpr
    ⟨hoff,fun k' _ => h.off k'⟩

theorem pushHdr (h : Pages c s free) (hc : c.Fits) (hx : x ∈ s.live) :
    Pages c (s.pushHdr c x) (update free (c.addrToPage x) (x::free (c.addrToPage x))) := by
  have hpg := h.page _ (h.live x hx)
  have hperm := List.perm_cons_erase hx
  have hpush : PageOk c (s.pushHdr c x) (c.addrToPage x) (x::free (c.addrToPage x)) := by
    refine ⟨?_,?_,?_⟩
    · simp only [Sys.pushHdr,update_self]
      exact hpg.chain.push (h.not_free hc hpg hx)
    · refine List.Perm.trans ?_ hpg.items
      have hfilter := hperm.filter fun y => c.addrToPage y = c.addrToPage x
      rw [List.filter_cons_of_pos (by simp)] at hfilter
      exact List.perm_middle.symm.trans (hfilter.symm.append_left _)
    · have hcarved : (s.pushHdr c x).carved c (c.addrToPage x) = s.carved c (c.addrToPage x) := rfl
      have := hpg.count
      rw [hcarved]
      simp only [Sys.pushHdr,update_self,List.length_cons]
      omega
  refine h.touch _ hpush (fun pg' hne => update_of_ne hne ..) (fun _ _ => rfl)
    (fun pg' hne => ?_) (fun pg' hne howned y hy => ?_) (fun _ _ => id)
    (fun y hy => h.live y (List.mem_of_mem_erase hy)) h.off
  · have hfilter := hperm.filter fun y => c.addrToPage y = pg'
    rw [List.filter_cons_of_neg (by simpa using Ne.symm hne)] at hfilter
    exact hfilter.symm
  · exact update_of_ne (ne_of_mem_of_not_mem hy (h.not_free hc (h.page _ howned) hx)) ..

theorem filter_cons (hx : c.addrToPage x = pg) (hne : pg' ≠ pg) :
    ((x::s.live).filter fun y => c.addrToPage y = pg').Perm
      (s.live.filter fun y => c.addrToPage y = pg') := by
  rw [List.filter_cons_of_neg (by simpa [hx] using Ne.symm hne)]

theorem popHdr (h : Pages c s free) (hc : c.Fits) (howned : s.owned pg = true)
    (hx : (s.page pg).next = some x) : ∃ free, Pages c (s.popHdr pg x) free := by
  have hpg := h.page pg howned
  obtain ⟨l,hl,htail⟩ := (hx ▸ hpg.chain).eq_cons
  rw [hl] at hpg
  have hhome := h.home hc hpg List.mem_cons_self
  have hpop : PageOk c (s.popHdr pg x) pg l := by
    refine ⟨?_,?_,?_⟩
    · simpa [Sys.popHdr] using htail
    · refine List.Perm.trans ?_ hpg.items
      rw [Sys.popHdr,List.filter_cons_of_pos (by simpa using hhome)]
      exact List.perm_middle
    · have hcarved : (s.popHdr pg x).carved c pg = s.carved c pg := rfl
      have := hpg.count
      rw [List.length_cons] at this
      rw [hcarved]
      simp only [Sys.popHdr,update_self]
      omega
  exact ⟨_,h.touch pg hpop (fun _ hne => update_of_ne hne ..) (fun _ _ => rfl)
    (fun _ => filter_cons hhome) (fun _ _ _ _ _ => rfl) (fun _ _ => id)
    (List.forall_mem_cons.mpr ⟨hhome.symm ▸ howned,h.live⟩) h.off⟩

theorem cutItem (h : Pages c s free) (hc : c.Fits) (howned : s.owned pg = true)
    (hcur : (s.node (c.nodeOf pg)).curPg = some pg) (hnext : (s.page pg).next = none)
    (hne : (s.page pg).itemCount ≠ 0) : ∃ free, Pages c (s.cutItem c (c.nodeOf pg) pg) free := by
  have hpg := h.page pg howned
  have hnil : free pg = [] := Chain.eq_nil (hnext ▸ hpg.chain)
  rw [hnil] at hpg
  have hcount := hpg.count
  rw [List.length_nil,Nat.zero_add] at hcount
  have hlt : s.carved c pg < c.nrElems := by omega
  have hnew : (s.cutItem c (c.nodeOf pg) pg).carved c pg = s.carved c pg+1 := by
    simp [Sys.carved,Sys.cutItem,Sys.setNode,hcur,Nat.add_div_right _ hc.pos]
  have hoff : (s.node (c.nodeOf pg)).pgOff = s.carved c pg*c.size := by
    obtain ⟨m,-,hoff⟩ := h.off (c.nodeOf pg)
    rw [Sys.carved,if_pos hcur,hoff,Nat.mul_div_cancel _ hc.pos]
  have hlive : (s.cutItem c (c.nodeOf pg) pg).live = c.item pg (s.carved c pg)::s.live := by
    rw [Sys.cutItem,hoff]
    rfl
  have hhome := hc.addrToPage_item pg hlt
  have hcut : PageOk c (s.cutItem c (c.nodeOf pg) pg) pg [] := by
    refine ⟨?_,?_,?_⟩
    · simp [Chain,Sys.cutItem]
    · rw [hnew,hlive,List.filter_cons_of_pos (by simpa using hhome),List.range_succ,List.map_append]
      exact (hpg.items.cons _).trans (List.perm_append_singleton ..).symm
    · rw [hnew]
      simp only [Sys.cutItem,update_self,List.length_nil]
      omega
  refine ⟨_,h.touch pg hcut (fun _ hne' => update_of_ne hne' ..) (fun pg' hne' => ?_)
    (fun _ hne' => ?_) (fun _ _ _ _ _ => rfl) (fun _ _ => id) ?_ ?_⟩
  · simp only [Sys.carved,Sys.cutItem,Sys.setNode]
    grind -linarith
  · rw [hlive]
    exact filter_cons hhome hne'
  · rw [hlive]
    exact List.forall_mem_cons.mpr ⟨hhome.symm ▸ howned,h.live⟩
  · exact (forall_update_iff s.node fun _ n => ∃ m ≤ c.nrElems, n.pgOff = m*c.size).mpr
      ⟨⟨_,hlt,by rw [hoff,Nat.succ_mul]⟩,fun k' _ => h.off k'⟩

theorem newPage (h : Pages c s free) (hcur : (s.node k).curPg = none) (howned : s.owned pg = false)
    (hk : c.nodeOf pg = k) : ∃ free, Pages c (s.newPage c k pg) free := by
  have hcarved : (s.newPage c k pg).carved c pg = 0 := by
    simp [Sys.carved,Sys.newPage,Sys.setNode,hk]
  have hnew : PageOk c (s.newPage c k pg) pg [] := by
    refine ⟨by simp [Chain,Sys.newPage],?_,by rw [hcarved]; simp [Sys.newPage]⟩
    rw [hcarved]
    refine List.Perm.of_eq (List.filter_eq_nil_iff.mpr fun x hx hpg => ?_)
    rw [← of_decide_eq_true hpg,h.live x hx] at howned
    contradiction
  refine ⟨_,h.touch pg hnew (fun _ hne => update_of_ne hne ..) (fun pg' hne => ?_)
    (fun _ _ => .refl _) (fun _ _ _ _ _ => rfl) (fun pg' hne => ?_) (fun x hx => ?_) ?_⟩
  · simp only [Sys.carved,Sys.newPage,Sys.setNode]
    grind -linarith
  · simp [Sys.newPage,update_of_ne hne]
  · have := h.live x hx
    simp only [Sys.newPage]
    grind -linarith
  · exact (forall_update_iff s.node fun _ n => ∃ m ≤ c.nrElems, n.pgOff = m*c.size).mpr
      ⟨⟨0,Nat.zero_le _,(Nat.zero_mul _).symm⟩,fun k' _ => h.off k'⟩

theorem putPage (h : Pages c s free) (hpg : ∀ x ∈ s.live, c.addrToPage x ≠ pg) :
    Pages c (s.putPage pg) free where
  page pg' howned := by
    simp only [Sys.putPage] at howned
    exact (h.page pg' (by grind -linarith)).congr rfl rfl (.refl _) fun _ _ => rfl
  live x hx := (update_of_ne (hpg x hx) ..).trans (h.live x hx)
  off := h.off

end Pages

/-! ### The operations -/

namespace Inv

theorem retire (h : Inv c s) (hc : c.Fits) (hcur : (s.node k).curPg = some pg)
    (hzero : (s.page pg).itemCount = 0) :
    Inv c (s.setNode k { s.node k with curPg := none,fullList := pg::(s.node k).fullList }) := by
  obtain ⟨⟨free,hp⟩,hl⟩ := h
  have hpg := hl.listed k pg
  obtain ⟨howned,rfl⟩ := hpg.cur hcur
  have hcarved := hp.carved_of_zero hc howned hzero
  have hnode := hl.node (c.nodeOf pg)
  obtain ⟨m,hm,hoff⟩ := hp.off (c.nodeOf pg)
  have hwhole : m = c.nrElems := by
    rwa [Sys.carved,if_pos hcur,hoff,Nat.mul_div_cancel _ hc.pos] at hcarved
  refine ⟨⟨free,hp.setNode ⟨m,hm,hoff⟩ fun pg' _ => ?_⟩,fun k' => ?_,fun k' pg' => ?_⟩
  · simp only [Sys.carved,Sys.setNode] at hcarved ⊢
    grind -linarith
  · have hk' := hl.node k'
    constructor <;> simp only [Sys.setNode] <;> grind -linarith
  · have hk' := hl.listed k' pg'
    have : 0 < slabPartialThresh := by decide
    have := hc.nrElems_pos
    constructor <;> simp only [Sys.setNode] <;> grind -linarith

theorem popPartial {rest : List ℕ} (h : Inv c s) (hc : c.Fits) (hcur : (s.node k).curPg = none)
    (hlist : (s.node k).partialList = pg::rest) :
    Inv c (s.setNode k { s.node k with partialList := rest,curPg := some pg }) := by
  obtain ⟨⟨free,hp⟩,hl⟩ := h
  have hpg := hl.listed k pg
  have hnode := hl.node k
  have hoff : (s.node k).pgOff = c.nrElems*c.size := by grind -linarith
  have hdiv := Nat.mul_div_cancel c.nrElems hc.pos
  refine ⟨⟨free,hp.setNode ⟨_,Nat.le_refl _,hoff⟩ fun pg' _ => ?_⟩,fun k' => ?_,fun k' pg' => ?_⟩
  · simp only [Sys.carved,Sys.setNode]
    grind -linarith
  · have hk' := hl.node k'
    constructor <;> simp only [Sys.setNode] <;> grind -linarith
  · have hk' := hl.listed k' pg'
    constructor <;> simp only [Sys.setNode] <;> grind -linarith

theorem newPage (h : Inv c s) (hcur : (s.node k).curPg = none) (howned : s.owned pg = false)
    (hk : c.nodeOf pg = k) : Inv c (s.newPage c k pg) := by
  obtain ⟨⟨free,hp⟩,hl⟩ := h
  refine ⟨hp.newPage hcur howned hk,fun k' => ?_,fun k' pg' => ?_⟩
  · have hk' := hl.node k'
    constructor <;> simp only [Sys.newPage,Sys.setNode] <;> grind -linarith
  · have hk' := hl.listed k' pg'
    constructor <;> simp only [Sys.newPage,Sys.setNode] <;> grind -linarith

theorem carve (h : Inv c s) (hc : c.Fits)
    (hne : ∀ pg, (s.node k).curPg = some pg → (s.page pg).itemCount ≠ 0) :
    Inv c (s.carve c k).1 := by
  obtain ⟨⟨free,hp⟩,hl⟩ := h
  unfold Sys.carve
  split
  · exact ⟨⟨free,hp⟩,hl⟩
  next pg hcur =>
    obtain ⟨howned,rfl⟩ := (hl.listed k pg).cur hcur
    split
    next hdr hnext =>
      refine ⟨hp.popHdr hc howned hnext,hl.node,fun k' pg' => ?_⟩
      have hk' := hl.listed k' pg'
      constructor <;> simp only [Sys.popHdr] <;> grind -linarith
    next hnext =>
      refine ⟨hp.cutItem hc howned hcur hnext (hne pg hcur),fun k' => ?_,fun k' pg' => ?_⟩
      · have hk' := hl.node k'
        constructor <;> simp only [Sys.cutItem,Sys.setNode] <;> grind -linarith
      · have hk' := hl.listed k' pg'
        constructor <;> simp only [Sys.cutItem,Sys.setNode] <;> grind -linarith

/-- After a page has got one more free item, it is on the list where it belongs. -/
theorem freed (h : Inv c s) (hc : c.Fits) (hx : x ∈ s.live) : Inv c (s.free c x) := by
  obtain ⟨⟨free,hp⟩,hl⟩ := h
  have hpush := hp.pushHdr hc hx
  have howned := hp.live x hx
  have hpg := hl.listed (c.nodeOf (c.addrToPage x)) (c.addrToPage x)
  have hnode := hl.node (c.nodeOf (c.addrToPage x))
  have hthresh := hc.thresh
  have hcount : ((s.pushHdr c x).page (c.addrToPage x)).itemCount =
      (s.page (c.addrToPage x)).itemCount+1 := by simp [Sys.pushHdr]
  simp only [Sys.free,hc.addrToNumaNode_eq,hcount]
  split_ifs with hcur hfew hall
  · refine ⟨⟨_,hpush⟩,hl.node,fun k' pg' => ?_⟩
    have hk' := hl.listed k' pg'
    constructor <;> simp only [Sys.pushHdr] <;> grind -linarith
  · refine ⟨⟨_,hpush.setNode ?_ fun pg' _ => ?_⟩,fun k' => ?_,fun k' pg' => ?_⟩
    · exact hp.off (c.nodeOf (c.addrToPage x))
    · simp only [Sys.carved,Sys.setNode,Sys.pushHdr]
      grind -linarith
    · have hk' := hl.node k'
      constructor <;> simp only [Sys.setNode,Sys.pushHdr] <;> grind -linarith
    · have hk' := hl.listed k' pg'
      by_cases heq : k' = c.nodeOf (c.addrToPage x)
      all_goals constructor <;> simp only [Sys.setNode,Sys.pushHdr]
      all_goals grind -linarith [List.Nodup.mem_erase_iff]
  · refine ⟨⟨_,Pages.putPage (hpush.setNode ?_ fun pg' _ => ?_) fun y hy => ?_⟩,fun k' => ?_,
      fun k' pg' => ?_⟩
    · exact hp.off (c.nodeOf (c.addrToPage x))
    · simp only [Sys.carved,Sys.setNode,Sys.pushHdr]
      grind -linarith
    · exact hpush.not_live hc howned (hcount.trans hall) y hy
    · have hk' := hl.node k'
      constructor <;> simp only [Sys.putPage,Sys.setNode,Sys.pushHdr] <;> grind -linarith
    · have hk' := hl.listed k' pg'
      constructor <;> simp only [Sys.putPage,Sys.setNode,Sys.pushHdr]
      all_goals grind -linarith [List.Nodup.mem_erase_iff]
  · refine ⟨⟨_,hpush⟩,hl.node,fun k' pg' => ?_⟩
    have hk' := hl.listed k' pg'
    constructor <;> simp only [Sys.pushHdr] <;> grind -linarith

theorem getPage {fresh : Option ℕ} (h : Inv c s) (hc : c.Fits)
    (hcur : (s.node k).curPg = none) (hs : s.getPage c k fresh = some s') :
    Inv c s' ∧ (∀ pg, (s'.node k).curPg = some pg → (s'.page pg).itemCount ≠ 0) ∧
      ∀ pg, s.owned pg = true → s'.owned pg = true := by
  simp only [Sys.getPage] at hs
  split at hs
  · next pg rest hlist =>
    obtain rfl := some.inj hs
    refine ⟨h.popPartial hc hcur hlist,fun pg' hpg' => ?_,fun _ => id⟩
    have hsome := ((h.lists.listed k pg).some_free.mp (by simp [hlist])).2.2.2
    obtain rfl : pg = pg' := by simpa [Sys.setNode] using hpg'
    have : 0 < slabPartialThresh := by decide
    exact Nat.ne_of_gt (Nat.lt_of_lt_of_le this hsome)
  · split at hs
    · obtain rfl := some.inj hs
      have hsame : s.setNode k { s.node k with curPg := none } = s := by
        rw [← hcur]
        exact congrArg (fun node => { s with node := node }) (update_eq_self ..)
      rw [hsame]
      exact ⟨h,fun pg hpg => by simp [hcur] at hpg,fun _ => id⟩
    · next pg =>
      obtain ⟨⟨howned,hk⟩,hs⟩ := ite_none_right_eq_some.mp hs
      obtain rfl := some.inj hs
      refine ⟨h.newPage hcur howned hk,fun pg' hpg' => ?_,fun pg' howned' => ?_⟩
      · obtain rfl : pg = pg' := by simpa [Sys.newPage,Sys.setNode] using hpg'
        simpa [Sys.newPage] using Nat.ne_of_gt hc.nrElems_pos
      · by_cases heq : pg' = pg <;> simp [Sys.newPage,heq,howned']

end Inv

/-- The current page is replaced in any case, so that it may as well be cleared before. -/
theorem Sys.getPage_clear {fresh : Option ℕ} {l : List ℕ} :
    (s.setNode k { s.node k with fullList := l }).getPage c k fresh =
      (s.setNode k { s.node k with curPg := none,fullList := l }).getPage c k fresh := by
  simp only [getPage,newPage,setNode,update_self,update_idem]

theorem Sys.owned_carve : (s.carve c k).1.owned = s.owned := by
  unfold carve
  split
  · rfl
  · split <;> rfl

theorem Inv.alloc {fresh : Option ℕ} {r : Sys × Option ℕ} (h : Inv c s) (hc : c.Fits)
    (hs : s.alloc c k fresh = some r) :
    Inv c r.1 ∧ ∀ pg, s.owned pg = true → r.1.owned pg = true := by
  simp only [Sys.alloc] at hs
  split at hs
  · next hcur =>
    obtain ⟨s',hget,rfl⟩ := map_eq_some_iff.mp hs
    obtain ⟨h,hne,hown⟩ := h.getPage hc hcur hget
    refine ⟨h.carve hc hne,?_⟩
    rw [Sys.owned_carve]
    exact hown
  · next pg hcur =>
    split at hs
    · next hzero =>
      obtain ⟨s',hget,rfl⟩ := map_eq_some_iff.mp hs
      rw [Sys.getPage_clear] at hget
      obtain ⟨h,hne,hown⟩ := (h.retire hc hcur hzero).getPage hc (by simp [Sys.setNode]) hget
      refine ⟨h.carve hc hne,?_⟩
      rw [Sys.owned_carve]
      exact hown
    · next hne =>
      obtain rfl := some.inj hs
      refine ⟨h.carve hc fun pg' hcur' => ?_,?_⟩
      · obtain rfl := some.inj (hcur.symm.trans hcur')
        exact hne
      · rw [Sys.owned_carve]
        exact fun _ => id

theorem Inv.not_live_free (h : Inv c s) (hc : c.Fits) (hx : x ∈ s.live)
    (howned : s.owned pg = true) (hput : (s.free c x).owned pg = false) :
    ∀ y ∈ (s.free c x).live, c.addrToPage y ≠ pg := by
  obtain ⟨free,hp⟩ := h.pages
  have hpush := hp.pushHdr hc hx
  have hkept : (s.pushHdr c x).owned pg ≠ false := by
    rw [ne_eq,Bool.not_eq_false]
    exact howned
  simp only [Sys.free] at hput ⊢
  split_ifs at hput ⊢ with hcur hthresh hall
  · exact absurd hput hkept
  · exact absurd hput hkept
  · obtain rfl : pg = c.addrToPage x := by
      by_contra hne
      exact hkept ((update_of_ne hne ..).symm.trans hput)
    exact hpush.not_live hc howned hall
  · exact absurd hput hkept

/-- The holder of an item writes to no free item. -/
theorem Inv.store (h : Inv c s) (hc : c.Fits) (hx : x ∈ s.live) (hdr : Option ℕ) :
    Inv c { s with nextHdr := update s.nextHdr x hdr } := by
  obtain ⟨⟨free,hp⟩,hl⟩ := h
  refine ⟨⟨free,fun pg howned => ?_,hp.live,hp.off⟩,hl.node,fun k pg => ?_⟩
  · exact (hp.page pg howned).congr rfl rfl (.refl _) fun y hy =>
      update_of_ne (ne_of_mem_of_not_mem hy (hp.not_free hc (hp.page pg howned) hx)) ..
  · obtain ⟨hcur,hfull,hsome,hroom⟩ := hl.listed k pg
    exact ⟨hcur,hfull,hsome,hroom⟩

theorem inv_init {nextHdr : ℕ → Option ℕ} {page : ℕ → Page} : Inv c (.init nextHdr page) where
  pages := ⟨fun _ => [],fun _ h => absurd h Bool.false_ne_true,fun _ h => absurd h List.not_mem_nil,
    fun _ => ⟨0,Nat.zero_le _,(Nat.zero_mul _).symm⟩⟩
  lists := by
    refine ⟨fun k => ?_,fun k pg => ?_⟩ <;> constructor <;> simp [Sys.init]

theorem Inv.step {e : Event} (h : Inv c s) (hc : c.Fits) (hs : s.step c e = some s') :
    Inv c s' ∧ ∀ pg, s.owned pg = true → s'.owned pg = false →
      ∀ x ∈ s'.live, c.addrToPage x ≠ pg := by
  cases e with
  | alloc k fresh =>
    obtain ⟨r,hr,rfl⟩ := map_eq_some_iff.mp hs
    obtain ⟨hinv,hown⟩ := h.alloc hc hr
    refine ⟨hinv,fun pg howned hput => ?_⟩
    rw [hown pg howned] at hput
    contradiction
  | free x =>
    obtain ⟨hx,hs⟩ := ite_none_right_eq_some.mp hs
    obtain rfl := some.inj hs
    exact ⟨h.freed hc hx,fun pg => h.not_live_free hc hx⟩
  | store x hdr =>
    obtain ⟨hx,hs⟩ := ite_none_right_eq_some.mp hs
    obtain rfl := some.inj hs
    refine ⟨h.store hc hx hdr,fun pg howned hput => ?_⟩
    exact absurd (howned.symm.trans hput) (by decide)

/-! ### The lists -/

namespace Lists

theorem mem_pages (h : Lists c s) :
    pg ∈ (s.node k).pages ↔ s.owned pg = true ∧ c.nodeOf pg = k := by
  have hk := h.listed k pg
  simp only [Node.pages,List.mem_append,mem_toList]
  grind -linarith

theorem nodup (h : Lists c s) (k : ℕ) : (s.node k).pages.Nodup := by
  have hnode := h.node k
  refine List.nodup_append.mpr ⟨List.nodup_append.mpr ⟨?_,hnode.full,?_⟩,hnode.some_free,?_⟩
  · cases (s.node k).curPg <;> simp
  all_goals
    rintro pg hpg _ hmem rfl
    have hk := h.listed k pg
    grind -linarith

end Lists

theorem Config.Fits.item_disjoint (hc : c.Fits) (hi : i < c.nrElems) (hi' : i' < c.nrElems)
    (hne : c.item pg i ≠ c.item pg' i') :
    c.item pg i+c.size ≤ c.item pg' i' ∨ c.item pg' i'+c.size ≤ c.item pg i := by
  have hmul : ∀ size {m n : ℕ}, m < n → m*size+size ≤ n*size := fun size {m n} hlt => by
    rw [← Nat.succ_mul]
    exact Nat.mul_le_mul_right _ hlt
  have hlt := hc.item_lt hi
  have hlt' := hc.item_lt hi'
  simp only [item,pageToAddr] at hne ⊢
  rcases Nat.lt_trichotomy pg pg' with hpg | rfl | hpg
  · have := hmul c.pgsize hpg
    omega
  · rcases Nat.lt_trichotomy i i' with hi | rfl | hi
    · have := hmul c.size hi
      omega
    · exact absurd rfl hne
    · have := hmul c.size hi
      omega
  · have := hmul c.pgsize hpg
    omega

/-- In every run of a slab, the live items are apart from each other, each within a page that the slab
owns; a page that it owns is the current page of its node, on the full list or on the partial list,
and only one of them; its item count is the number of its items that are not live; and a page that
goes back has no live item. -/
theorem slab_invariant {size : BitVec 64} {flags : BitVec 32} {nextHdr : ℕ → Option ℕ}
    {page : ℕ → Page} {es : List Event} (hc : slabCreate size flags = some c)
    (hs : run c nextHdr page es = some s) :
    (s.live.Nodup ∧ ∀ x ∈ s.live, ∀ y ∈ s.live, x ≠ y → x+c.size ≤ y ∨ y+c.size ≤ x) ∧
    (∀ x ∈ s.live, ∃ pg, s.owned pg = true ∧ c.pageToAddr pg ≤ x ∧
      x+c.size ≤ c.pageToAddr pg+c.pgsize) ∧
    (∀ pg, s.owned pg = true ↔ ∃ k, pg ∈ (s.node k).pages) ∧
    (∀ k, (s.node k).pages.Nodup) ∧ (∀ k, ∀ pg ∈ (s.node k).pages, c.nodeOf pg = k) ∧
    (∀ pg, s.owned pg = true →
      (s.page pg).itemCount+(s.live.filter fun x => c.addrToPage x = pg).length = c.nrElems) ∧
    ∀ e s', s.step c e = some s' → ∀ pg, s.owned pg = true → s'.owned pg = false →
      ∀ x ∈ s'.live, c.addrToPage x ≠ pg := by
  have hfits := slabCreate_fits hc
  have h : Inv c s := Machine.run_keeps (fun h hstep => (h.step hfits hstep).1) inv_init hs
  obtain ⟨free,hp⟩ := h.pages
  refine ⟨⟨hp.live_nodup hfits,fun x hx y hy hne => ?_⟩,fun x hx => ?_,fun pg => ⟨?_,?_⟩,
    fun k => h.lists.nodup k,fun k pg hmem => (h.lists.mem_pages.mp hmem).2,
    fun pg => hp.itemCount_add hfits,fun e s' hstep => (h.step hfits hstep).2⟩
  · obtain ⟨pg,i,hi,-,rfl⟩ := hp.exists_item hfits hx
    obtain ⟨pg',i',hi',-,rfl⟩ := hp.exists_item hfits hy
    exact hfits.item_disjoint hi hi' hne
  · obtain ⟨pg,i,hi,howned,rfl⟩ := hp.exists_item hfits hx
    refine ⟨pg,howned,Nat.le_add_right ..,?_⟩
    rw [Config.item,Nat.add_assoc]
    exact Nat.add_le_add_left (hfits.item_lt hi) _
  · intro howned
    exact ⟨_,h.lists.mem_pages.mpr ⟨howned,rfl⟩⟩
  · rintro ⟨k,hmem⟩
    exact (h.lists.mem_pages.mp hmem).1

/-- Eight items of 512 bytes fill the page 3.  The page allocator fails once, and then the ninth item
comes from the page 5.  All items of the page 3 but the last one are freed. -/
def nineItems : List Event :=
  List.replicate 8 (.alloc 0 (some 3))++[.alloc 0 none,.alloc 0 (some 5),.store 20480 (some 9)]++
    [12288,12800,13312,13824,14336,14848,15360].map .free

theorem slab_invariant_nine_items :
    ∃ s, run ⟨512,0,8⟩ (fun _ => none) (fun _ => ⟨none,0⟩) nineItems = some s ∧
      s.live = [20480,15872] ∧ (s.node 0).pages = [5,3] ∧ (s.page 3).itemCount = 7 ∧
      (s.page 3).itemCount+(s.live.filter fun x =>
        Config.addrToPage ⟨512,0,8⟩ x = 3).length = 8 ∧
      ∃ s', s.step ⟨512,0,8⟩ (.free 15872) = some s' ∧ s'.live = [20480] ∧
        ∀ x ∈ s'.live, Config.addrToPage ⟨512,0,8⟩ x ≠ 3 := by
  obtain ⟨s,hs,hlive,hpages,hcount,howned,s',hs',hlive',hput⟩ :
      ∃ s ∈ run ⟨512,0,8⟩ (fun _ => none) (fun _ => ⟨none,0⟩) nineItems,
        s.live = [20480,15872] ∧ (s.node 0).pages = [5,3] ∧ (s.page 3).itemCount = 7 ∧
        s.owned 3 = true ∧ ∃ s' ∈ s.step ⟨512,0,8⟩ (.free 15872),
          s'.live = [20480] ∧ s'.owned 3 = false := by
    decide +kernel
  have hinv := slab_invariant (show slabCreate 500 0 = some ⟨512,0,8⟩ from rfl) hs
  exact ⟨s,hs,hlive,hpages,hcount,hinv.2.2.2.2.2.1 3 howned,s',hs',hlive',
    hinv.2.2.2.2.2.2 _ s' hs' 3 howned hput⟩

end Slab
end Vessel
