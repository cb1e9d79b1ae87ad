import Vessel.Linked
import Vessel.Machine

/-! The slab allocator.  Items are cut from pages of the page allocator; a page has a list of its free
items, threaded through them, and its node keeps it as the current page, on the full list or on the
partial list.  Addresses count from the start of the page memory. -/
namespace Vessel
namespace Slab

open Linked Function

def pgsize4kb : ℕ := 4096

def pgsize2mb : ℕ := 2097152

def slabPartialThresh : ℕ := 4

def cacheLineSize : BitVec 64 := 64

/-- `__WORD_SIZE`, which counts bits. -/
def wordSize : BitVec 64 := 64

def alignUp (x align : BitVec 64) : BitVec 64 := ((x-1) ||| (align-1))+1

def slab4kbLimit : BitVec 64 := 512

def slab2mbLimit : BitVec 64 := 262144

def slabFlagLgpage : BitVec 32 := 1

def slabFlagFalseOkay : BitVec 32 := 2

/-- What `slab_create` sets in every node; it passes no offset. -/
structure Config where
  size : ℕ
  flags : BitVec 32
  nrElems : ℕ

def Config.pgsize (c : Config) : ℕ := if c.flags &&& slabFlagLgpage ≠ 0 then pgsize2mb else pgsize4kb

/-- `slab_create`; a size that is rounded to zero divides by zero. -/
def slabCreate (size : BitVec 64) (flags : BitVec 32) : Option Config :=
  let size := if flags &&& slabFlagFalseOkay = 0 then alignUp size cacheLineSize
    else alignUp size wordSize
  if slab2mbLimit < size then none
  else if size = 0 then none
  else
    let flags := if slab4kbLimit < size then flags ||| slabFlagLgpage else flags
    let pgsize := if flags &&& slabFlagLgpage ≠ 0 then pgsize2mb else pgsize4kb
    some ⟨size.toNat,flags,pgsize/size.toNat⟩

/-- `struct page`, as far as the slab uses it. -/
structure Page where
  next : Option ℕ
  itemCount : ℕ

/-- `struct slab_node`. -/
structure Node where
  pgOff : ℕ
  curPg : Option ℕ
  fullList : List ℕ
  partialList : List ℕ

/-- `nextHdr` is the header in the memory of an item, which its holder may overwrite.  `live` and
`owned` are bookkeeping: the items that are allocated, and the pages that the slab has got and not
returned. -/
structure Sys where
  nextHdr : ℕ → Option ℕ
  page : ℕ → Page
  node : ℕ → Node
  live : List ℕ
  owned : ℕ → Bool

inductive Event where
  /-- `slab_alloc_on_node`, with what the page allocator returns if it is asked. -/
  | alloc (numaNode : ℕ) (pg : Option ℕ)
  | free (item : ℕ)
  /-- The holder of an item writes to it. -/
  | store (item : ℕ) (nextHdr : Option ℕ)

/-- `LGPAGE_NODE_ADDR_LEN`: 1024 large pages for each NUMA node. -/
def lgpageNodeAddrLen : ℕ := 1024*pgsize2mb

def addrToNumaNode (addr : ℕ) : ℕ := addr/lgpageNodeAddrLen

def Config.pageToAddr (c : Config) (pg : ℕ) : ℕ := pg*c.pgsize

/-- `addr_to_lgpage` or `addr_to_smpage`. -/
def Config.addrToPage (c : Config) (addr : ℕ) : ℕ := addr/c.pgsize

/-- The node that a page is on. -/
def Config.nodeOf (c : Config) (pg : ℕ) : ℕ := addrToNumaNode (c.pageToAddr pg)

namespace Sys

/-- The nodes as `__slab_create_node` leaves them. -/
def init (nextHdr : ℕ → Option ℕ) (page : ℕ → Page) : Sys :=
  ⟨nextHdr,page,fun _ => ⟨0,none,[],[]⟩,[],fun _ => false⟩

def setNode (s : Sys) (k : ℕ) (n : Node) : Sys := { s with node := update s.node k n }

/-- A page that the page allocator has given becomes the current one. -/
def newPage (c : Config) (s : Sys) (k pg : ℕ) : Sys :=
  { s.setNode k { s.node k with pgOff := 0,curPg := some pg } with
    page := update s.page pg ⟨none,c.nrElems⟩
    owned := update s.owned pg true }

/-- `__slab_node_get_page`, whose result becomes the current page.  The page allocator gives a page of
the node that it has not given already. -/
def getPage (c : Config) (s : Sys) (k : ℕ) (fresh : Option ℕ) : Option Sys :=
  let n := s.node k
  match n.partialList with
  | pg::rest => some (s.setNode k { n with partialList := rest,curPg := some pg })
  | [] => match fresh with
    | none => some (s.setNode k { n with curPg := none })
    | some pg => if s.owned pg = false ∧ c.nodeOf pg = k then some (s.newPage c k pg) else none

/-- The first of the free items of a page is taken. -/
def popHdr (s : Sys) (pg hdr : ℕ) : Sys :=
  { s with
    page := update s.page pg ⟨s.nextHdr hdr,(s.page pg).itemCount-1⟩
    live := hdr::s.live }

/-- The next item is cut from the current page. -/
def cutItem (c : Config) (s : Sys) (k pg : ℕ) : Sys :=
  { s.setNode k { s.node k with pgOff := (s.node k).pgOff+c.size } with
    page := update s.page pg ⟨none,(s.page pg).itemCount-1⟩
    live := (c.pageToAddr pg+(s.node k).pgOff)::s.live }

/-- The end of `__slab_node_alloc`: an item of the current page. -/
def carve (c : Config) (s : Sys) (k : ℕ) : Sys × Option ℕ :=
  match (s.node k).curPg with
  | none => (s,none)
  | some pg => match (s.page pg).next with
    | some hdr => (s.popHdr pg hdr,some hdr)
    | none => (s.cutItem c k pg,some (c.pageToAddr pg+(s.node k).pgOff))

/-- `__slab_node_alloc`. -/
def alloc (c : Config) (s : Sys) (k : ℕ) (fresh : Option ℕ) : Option (Sys × Option ℕ) :=
  let n := s.node k
  match n.curPg with
  | none => (s.getPage c k fresh).map fun s => s.carve c k
  | some pg =>
    if (s.page pg).itemCount = 0 then
      ((s.setNode k { n with fullList := pg::n.fullList }).getPage c k fresh).map fun s => s.carve c k
    else some (s.carve c k)

/-- The item comes in front of the free items of its page. -/
def pushHdr (c : Config) (s : Sys) (item : ℕ) : Sys :=
  let pg := c.addrToPage item
  { s with
    nextHdr := update s.nextHdr item (s.page pg).next
    page := update s.page pg ⟨some item,(s.page pg).itemCount+1⟩
    live := s.live.erase item }

/-- `page_put`: the page goes back to the page allocator. -/
def putPage (s : Sys) (pg : ℕ) : Sys := { s with owned := update s.owned pg false }

/-- `slab_free`, with `slab_node_free`. -/
def free (c : Config) (s : Sys) (item : ℕ) : Sys :=
  let k := addrToNumaNode item
  let n := s.node k
  let pg := c.addrToPage item
  let s := s.pushHdr c item
  if n.curPg = some pg then s
  else if (s.page pg).itemCount = slabPartialThresh then
    -- `list_del` takes the page out of the list it is on
    s.setNode k { n with
      fullList := n.fullList.erase pg
      partialList := pg::n.partialList.erase pg }
  else if (s.page pg).itemCount = c.nrElems then
    (s.setNode k { n with
      fullList := n.fullList.erase pg
      partialList := n.partialList.erase pg }).putPage pg
  else s

def step (c : Config) (s : Sys) : Event → Option Sys
  | .alloc k fresh => (s.alloc c k fresh).map Prod.fst
  | .free item => if item ∈ s.live then some (s.free c item) else none
  | .store item nextHdr =>
    if item ∈ s.live then some { s with nextHdr := update s.nextHdr item nextHdr } else none

end Sys

/-- The runs of a slab, whatever is in the memory of the items and of the page structures. -/
def run (c : Config) (nextHdr : ℕ → Option ℕ) (page : ℕ → Page) (es : List Event) : Option Sys :=
  Machine.run (Sys.step c) (.init nextHdr page) es

/-- The pages of a node. -/
def Node.pages (n : Node) : List ℕ := n.curPg.toList++n.fullList++n.partialList

/-! ### The sizes -/

/-- The items fit into a page, and there are more of them than a page on the full list has free. -/
structure Config.Fits (c : Config) : Prop where
  pos : 0 < c.size
  thresh : 2*slabPartialThresh ≤ c.nrElems
  le : c.nrElems*c.size ≤ c.pgsize

theorem or_lgpage (flags : BitVec 32) : (flags ||| slabFlagLgpage) &&& slabFlagLgpage = slabFlagLgpage := by
  ext i
  simp only [BitVec.getElem_and,BitVec.getElem_or]
  cases flags[i] <;> cases slabFlagLgpage[i] <;> rfl

theorem slabCreate_fits {size : BitVec 64} {flags : BitVec 32} {c : Config}
    (h : slabCreate size flags = some c) : c.Fits := by
  unfold slabCreate at h
  generalize (if flags &&& slabFlagFalseOkay = 0 then alignUp size cacheLineSize
    else alignUp size wordSize) = size at h
  obtain ⟨hmax,h⟩ := Option.ite_none_left_eq_some.mp h
  obtain ⟨hne,h⟩ := Option.ite_none_left_eq_some.mp h
  obtain rfl := Option.some.inj h
  have hmax : size.toNat ≤ 262144 := Nat.le_of_not_lt hmax
  have hpos : 0 < size.toNat := Nat.pos_of_ne_zero fun hzero => hne (BitVec.eq_of_toNat_eq hzero)
  refine ⟨hpos,(Nat.le_div_iff_mul_le hpos).mpr ?_,Nat.div_mul_le_self ..⟩
  -- a size above the small limit sets the flag
  by_cases hlimit : slab4kbLimit < size
  · rw [if_pos hlimit,or_lgpage,if_pos (by decide)]
    simp only [slabPartialThresh,pgsize2mb]
    omega
  · have hsmall : size.toNat ≤ 512 := Nat.le_of_not_lt hlimit
    rw [if_neg hlimit]
    simp only [slabPartialThresh,pgsize4kb,pgsize2mb]
    split <;> omega

end Slab
end Vessel
