import Vessel.Arp
import Mathlib.Data.List.Count

/-! What holds of the ARP cache in every state of every run, and how long a packet can wait. -/
namespace Vessel.Arp

open Machine List

attribute [local grind =] Function.update_apply

/-! ### The table -/

section Table

variable {hash : Ip → ℕ} {tbl : ℕ → List Entry} {d : Ip} {e : Entry}

/-- What uniqueness and the count of the entries depend on. -/
def Entry.tag (e : Entry) : Ip × Bool := (e.ip,e.isStatic)

def Placed (hash : Ip → ℕ) (tbl : ℕ → List Entry) : Prop := ∀ i, ∀ e ∈ tbl i, hash e.ip = i

theorem modifyFirst_of_find? {α : Type} {p : α → Bool} {b : List α} {a : α}
    (h : b.find? p = some a) :
    ∃ x y, b = x++a::y ∧ ∀ f, modifyFirst p f b = x++f a::y := by
  induction b with
  | nil => simp at h
  | cons c b ih =>
    by_cases hc : p c
    · exact ⟨[],b,by grind,by grind [modifyFirst]⟩
    · obtain ⟨x,y,hb,hmod⟩ := ih (by grind)
      exact ⟨c::x,y,by grind,by grind [modifyFirst]⟩

theorem lookupEntry_ip (h : lookupEntry hash tbl d = some e) : e.ip = d := by
  simpa using List.find?_some h

theorem entries_modifyEntry (hhash : ∀ ip, hash ip < arpTableCapacity)
    (h : lookupEntry hash tbl d = some e) :
    ∃ x y, entries tbl = x++e::y ∧
      ∀ f, entries (modifyEntry hash tbl d f) = x++f e::y := by
  obtain ⟨l,r,hl,hupdate⟩ := Buckets.entries_update (hhash d) tbl
  obtain ⟨x,y,hb,hmod⟩ := modifyFirst_of_find? h
  refine ⟨l++x,y++r,?_,fun f => ?_⟩
  · rw [entries,hl,hb]
    simp
  · rw [entries,modifyEntry,hupdate,hmod]
    simp

theorem entries_addHead (hhash : ∀ ip, hash ip < arpTableCapacity) (tbl : ℕ → List Entry)
    (e : Entry) :
    ∃ x y, entries tbl = x++y ∧ entries (addHead hash tbl e) = x++e::y := by
  obtain ⟨l,r,hl,hupdate⟩ := Buckets.entries_update (hhash e.ip) tbl
  exact ⟨l,tbl (hash e.ip)++r,hl,hupdate _⟩

theorem Placed.modifyEntry (hp : Placed hash tbl) (h : lookupEntry hash tbl d = some e)
    {f : Entry → Entry} (hf : (f e).ip = e.ip) : Placed hash (modifyEntry hash tbl d f) := by
  obtain ⟨x,y,hb,hmod⟩ := modifyFirst_of_find? h
  have := lookupEntry_ip h
  intro i a
  have := hp i
  rw [Arp.modifyEntry]
  grind

theorem Placed.addHead (hp : Placed hash tbl) : Placed hash (addHead hash tbl e) := by
  intro i a
  have := hp i
  rw [Arp.addHead]
  grind

/-- A bucket without the address is as good as a table without it. -/
theorem Placed.absent (hp : Placed hash tbl) (h : lookupEntry hash tbl d = none) :
    ∀ a ∈ entries tbl, a.ip ≠ d := by
  rintro a ha rfl
  obtain ⟨i,-,hai⟩ := Buckets.mem_entries.mp ha
  have := find?_eq_none.mp h a (hp i a hai ▸ hai)
  simp at this

end Table

/-! ### One entry through ageing -/

section Ageing

variable {nowUs now : BitVec 64} {e e' : Entry}

/-- Only an entry without an address has packets, and tries are bounded. -/
structure Entry.Fits (e : Entry) : Prop where
  probing : e.q ≠ [] → e.state = .probing
  tries : e.triesLeft ≤ arpRetries

/-- Ageing keeps an entry's address and packets, and whether it is static or probing. -/
@[grind cases] structure Aged (e e' : Entry) : Prop where
  ip : e'.ip = e.ip
  q : e'.q = e.q
  static : e'.isStatic = e.isStatic
  probing : e.state = .probing → e'.state = .probing ∧ e'.triesLeft ≤ e.triesLeft
  tries : e.triesLeft ≤ arpRetries → e'.triesLeft ≤ arpRetries

theorem Aged.fits (h : Aged e e') (he : e.Fits) : e'.Fits :=
  ⟨fun hq => (h.probing (he.probing (h.q ▸ hq))).1,h.tries he.tries⟩

theorem arpAgeEntry_aged (h : arpAgeEntry nowUs now e = some e') : Aged e e' := by
  constructor <;> grind [arpAgeEntry,Entry.isStatic]

theorem arpAgeEntry_static (h : e.isStatic = true) :
    arpAgeEntry nowUs now e = some e := by
  grind [arpAgeEntry,Entry.isStatic]

theorem arpAgeEntry_expired (hs : e.state = .probing) (hts : ¬nowUs-e.ts < arpRetryTime)
    (h : arpAgeEntry nowUs now e = some e') : e'.triesLeft < e.triesLeft := by
  grind [arpAgeEntry,Entry.timeout]

end Ageing

/-! ### The entries of the cache -/

section Cache

variable {statics x y b : List Entry} {e e' : Entry} {nr : ℕ} {g : Entry → Option Entry}

/-- What the list of all entries and the number of those that are not static satisfy; only static
entries can share an address. -/
structure Cache (statics es : List Entry) (nr : ℕ) : Prop where
  unique : (es.map Entry.tag).Pairwise fun a b => a.1 = b.1 → a.2 = true ∧ b.2 = true
  fits : ∀ e ∈ es, e.Fits
  statics : es.filter Entry.isStatic = statics
  count : nr = es.countP fun e => !e.isStatic

theorem Cache.insert (h : Cache statics (x++y) nr) (hip : ∀ a ∈ x++y, a.ip ≠ e.ip)
    (hs : e.isStatic = false) (hfits : e.Fits) :
    Cache statics (x++e::y) (nr+1) where
  unique := by
    have hu := h.unique
    rw [map_append] at hu
    rw [map_append,map_cons,pairwise_middle (fun hab heq => (hab heq.symm).symm),pairwise_cons]
    refine ⟨fun t ht heq => ?_,hu⟩
    rw [← map_append,mem_map] at ht
    obtain ⟨a,ha,rfl⟩ := ht
    exact absurd heq.symm (hip a ha)
  fits a ha := by
    have := h.fits a
    grind
  statics := by
    rw [← h.statics,filter_append,filter_append,filter_cons_of_neg (by simp [hs])]
  count := by
    rw [h.count,countP_append,countP_append,countP_cons_of_pos (by simp [hs]),Nat.add_assoc]

theorem Cache.modify (h : Cache statics (x++e::y) nr) (htag : e'.tag = e.tag)
    (hs : e.isStatic = false) (hfits : e'.Fits) :
    Cache statics (x++e'::y) nr where
  unique := by
    have hu := h.unique
    rw [map_append,map_cons] at hu ⊢
    rwa [htag]
  fits a ha := by
    have := h.fits a
    grind
  statics := by
    have hs' : e'.isStatic = false := (congrArg Prod.snd htag).trans hs
    simp [← h.statics,hs,hs']
  count := by
    have hs' : e'.isStatic = false := (congrArg Prod.snd htag).trans hs
    simp [h.count,countP_append,hs,hs']

/-- The worker at a bucket: an entry is aged or, if it is not static, deleted. -/
@[grind cases] structure Ages (g : Entry → Option Entry) : Prop where
  aged : ∀ {e e'}, g e = some e' → Aged e e'
  static : ∀ {e}, e.isStatic = true → g e = some e

theorem ages_arpAgeEntry (nowUs : BitVec 64) (clock : Entry → BitVec 64) :
    Ages fun e => arpAgeEntry nowUs (clock e) e :=
  ⟨arpAgeEntry_aged,arpAgeEntry_static⟩

/-- The entries that are deleted. -/
def dead (g : Entry → Option Entry) (b : List Entry) : List Entry := b.filter fun e => (g e).isNone

theorem Ages.tags (hg : Ages g) (b : List Entry) :
    (b.filterMap g).map Entry.tag <+ b.map Entry.tag := by
  induction b with
  | nil => exact .slnil
  | cons e b ih =>
    cases h : g e with
    | none =>
      rw [filterMap_cons_none h]
      exact ih.cons _
    | some e' =>
      rw [filterMap_cons_some h,map_cons,map_cons,Entry.tag,(hg.aged h).ip,(hg.aged h).static]
      exact ih.cons_cons _

theorem Ages.filter_static (hg : Ages g) (b : List Entry) :
    (b.filterMap g).filter Entry.isStatic = b.filter Entry.isStatic := by
  induction b with
  | nil => rfl
  | cons e b ih => grind

theorem Ages.count (hg : Ages g) (b : List Entry) :
    (b.filterMap g).countP (fun e => !e.isStatic)+(dead g b).length =
      b.countP fun e => !e.isStatic := by
  induction b with
  | nil => rfl
  | cons e b ih => grind [dead]

theorem Cache.age (h : Cache statics (x++(b++y)) nr) (hg : Ages g) :
    Cache statics (x++(b.filterMap g++y)) (nr-(dead g b).length) where
  unique := by
    refine h.unique.sublist ?_
    simp only [map_append]
    exact (Sublist.refl _).append ((hg.tags b).append (Sublist.refl _))
  fits a ha := by
    simp only [mem_append,mem_filterMap] at ha
    obtain hx | ⟨c,hc,hca⟩ | hy := ha
    · exact h.fits a (by simp [hx])
    · exact (hg.aged hca).fits (h.fits c (by simp [hc]))
    · exact h.fits a (by simp [hy])
  statics := by
    rw [← h.statics]
    simp only [filter_append,hg.filter_static]
  count := by
    have := hg.count b
    have := h.count
    simp only [countP_append] at this ⊢
    omega

end Cache

/-! ### The packets -/

section Packets

variable {es x y b : List Entry} {e e' : Entry} {c : Call} {calls : List Call}
variable {given : List (ℕ × Ip)} {sent : List (ℕ × Mac)} {freed : List ℕ}
variable {learned : List (Ip × Mac)} {d : Ip} {mac : Mac} {m : Option ℕ}

/-- Every packet that was kept waits, is about to be sent, or was sent or freed, and is there
once. -/
structure Owned (es : List Entry) (calls : List Call) (given : List (ℕ × Ip))
    (sent : List (ℕ × Mac)) (freed : List ℕ) (learned : List (Ip × Mac)) : Prop where
  owned : ∀ m, (given.map Prod.fst).count m = (queued es).count m+
    (calls.flatMap Call.taken).count m+(sent.map Prod.fst).count m+freed.count m
  fresh : (given.map Prod.fst++calls.flatMap Call.mbufs).Nodup
  waits : ∀ e ∈ es, ∀ m ∈ e.q, (m,e.ip) ∈ given
  drains : ∀ d mac q, .draining d mac q ∈ calls →
    (d,mac) ∈ learned ∧ ∀ m ∈ q, (m,d) ∈ given
  sent : ∀ p ∈ sent, ∃ d, (p.1,d) ∈ given ∧ (d,p.2) ∈ learned

@[simp,grind =] theorem queued_append : queued (x++y) = queued x++queued y := flatMap_append

@[simp,grind =] theorem queued_cons : queued (e::x) = e.q++queued x := flatMap_cons

theorem Owned.perm {calls' : List Call} (h : Owned es calls given sent freed learned)
    (hp : calls ~ calls') : Owned es calls' given sent freed learned :=
  { h with
    owned := fun m => (hp.flatMap_right Call.taken).count_eq m ▸ h.owned m
    fresh := (((hp.flatMap_right _).append_left _).nodup_iff).mp h.fresh
    drains := fun d mac q hc => h.drains d mac q (hp.mem_iff.mpr hc) }

theorem Owned.begin (h : Owned es calls given sent freed learned) {newe : Option (BitVec 64)}
    (hm : ¬∃ x ∈ m.toList, x ∈ given.map Prod.fst ∨ x ∈ calls.flatMap Call.mbufs) :
    Owned es (.cold d m newe::calls) given sent freed learned :=
  { h with
    fresh := by
      rw [flatMap_cons,Call.mbufs,(perm_append_comm_assoc ..).nodup_iff,nodup_append']
      exact ⟨by cases m <;> simp,h.fresh,fun x hx hmem => hm ⟨x,hx,mem_append.mp hmem⟩⟩
    drains := by
      have := h.drains
      grind }

theorem Owned.leave {newe : Option (BitVec 64)}
    (h : Owned es (.cold d m newe::calls) given sent freed learned) :
    Owned es calls given sent freed learned :=
  { h with
    fresh := h.fresh.sublist ((Sublist.refl _).append (sublist_append_right _ _))
    drains := by
      have := h.drains
      grind }

/-- A lookup keeps the packet, in an entry for its address or to free it. -/
theorem Owned.give {newe : Option (BitVec 64)} {es' : List Entry} {freed' : List ℕ}
    (h : Owned es (.cold d m newe::calls) given sent freed learned)
    (hcount : ∀ a, (queued es').count a+freed'.count a =
      m.toList.count a+(queued es).count a+freed.count a)
    (hw : ∀ e ∈ es', ∀ x ∈ e.q, x ∈ m.toList ∧ e.ip = d ∨ (x,e.ip) ∈ given) :
    Owned es' calls (m.toList.map (fun m => (m,d))++given) sent freed' learned := by
  have hfst : (m.toList.map (fun m => (m,d))).map Prod.fst = m.toList := by
    simp [Function.comp_def]
  constructor
  case owned =>
    intro a
    have := h.owned a
    have := hcount a
    simp only [flatMap_cons,Call.taken,nil_append,map_append,hfst,count_append] at *
    omega
  case fresh =>
    rw [map_append,hfst,append_assoc]
    exact (perm_append_comm_assoc ..).nodup_iff.mp h.fresh
  case waits => grind
  case drains =>
    intro d mac q hc
    obtain ⟨hl,hq⟩ := h.drains d mac q (mem_cons_of_mem _ hc)
    exact ⟨hl,fun m hm => mem_append_right _ (hq m hm)⟩
  case sent => exact fun p hp => (h.sent p hp).imp fun _ => And.imp_left (mem_append_right _)

theorem Owned.push {newe : Option (BitVec 64)}
    (h : Owned (x++e::y) (.cold e.ip m newe::calls) given sent freed learned) :
    Owned (x++{ e with q := e.q++m.toList }::y) calls
      (m.toList.map (fun m => (m,e.ip))++given) sent freed learned := by
  have hw := h.waits
  simp only [mem_append,mem_cons] at hw
  apply h.give
  · intro a
    simp
    omega
  · grind

theorem Owned.learn (h : Owned es calls given sent freed learned) (p : Ip × Mac) :
    Owned es calls given sent freed (p::learned) :=
  { h with
    drains := fun d mac q hc => (h.drains d mac q hc).imp_left (mem_cons_of_mem _)
    sent := fun p hp => (h.sent p hp).imp fun _ => And.imp_right (mem_cons_of_mem _) }

theorem Owned.insert (h : Owned (x++y) calls given sent freed learned) (hq : e.q = []) :
    Owned (x++e::y) calls given sent freed learned :=
  { h with
    owned := by simpa [hq] using h.owned
    waits := by
      have := h.waits
      grind }

theorem Owned.take (h : Owned (x++e::y) calls given sent freed learned) (hq : e'.q = [])
    (hl : (e.ip,mac) ∈ learned) :
    Owned (x++e'::y) (.draining e.ip mac e.q::calls) given sent freed learned :=
  { h with
    owned := fun a => by
      have := h.owned a
      simp [Call.taken,hq] at this ⊢
      omega
    waits := by
      have := h.waits
      grind
    drains := by
      have := h.waits
      have := h.drains
      grind }

theorem Owned.send {m : ℕ} {q : List ℕ}
    (h : Owned es (.draining d mac (m::q)::calls) given sent freed learned) :
    Owned es (.draining d mac q::calls) given ((m,mac)::sent) freed learned := by
  have hfirst := h.drains _ _ _ mem_cons_self
  constructor
  case owned =>
    intro a
    have := h.owned a
    simp [Call.taken,count_cons] at this ⊢
    omega
  case fresh => exact h.fresh
  case waits => exact h.waits
  case drains =>
    have := h.drains
    grind
  case sent =>
    have := h.sent
    grind

theorem Owned.drained (h : Owned es (.draining d mac []::calls) given sent freed learned) :
    Owned es calls given sent freed learned :=
  { h with drains := fun _ _ _ hc => h.drains _ _ _ (mem_cons_of_mem _ hc) }

theorem Ages.queued {g : Entry → Option Entry} (hg : Ages g) (b : List Entry) (m : ℕ) :
    (queued b).count m = (queued (b.filterMap g)).count m+(queued (dead g b)).count m := by
  induction b with
  | nil => rfl
  | cons e b ih => grind [dead]

theorem Owned.age {g : Entry → Option Entry}
    (h : Owned (x++(b++y)) calls given sent freed learned) (hg : Ages g) :
    Owned (x++(b.filterMap g++y)) calls given sent (queued (dead g b)++freed) learned :=
  { h with
    owned := fun a => by
      have := h.owned a
      have := hg.queued b a
      simp at *
      omega
    waits := by
      have hw := h.waits
      simp only [mem_append] at hw
      grind }

end Packets

/-! ### Steps -/

section Steps

variable {hash : Ip → ℕ} {statics : List Entry} {s t : Sys} {d : Ip} {m : Option ℕ} {e : Entry}

structure Inv (hash : Ip → ℕ) (statics : List Entry) (s : Sys) : Prop where
  placed : Placed hash s.tbl
  cache : Cache statics (entries s.tbl) s.nrDynamicEntries
  parked : s.worker = .parked → s.nrDynamicEntries = 0
  owned : Owned (entries s.tbl) s.calls s.given s.sent s.freed s.learned

theorem Inv.first (h : Inv hash statics s) {k : ℕ} {c : Call} (hk : s.calls[k]? = some c) :
    Inv hash statics { s with calls := c::s.calls.eraseIdx k } := by
  obtain ⟨hlt,rfl⟩ := List.getElem?_eq_some_iff.mp hk
  exact { h with owned := h.owned.perm (getElem_cons_eraseIdx_perm hlt).symm }

theorem Inv.insertEntry_worker (h : Inv hash statics s) (e : Entry) :
    (s.insertEntry hash e).worker ≠ .parked := by
  by_cases hw : s.worker = .parked
  · simp [Sys.insertEntry,h.parked hw,hw]
  · simp [Sys.insertEntry,hw]

theorem Inv.lookup (h : Inv hash statics s) {mem : Bool} {now : BitVec 64}
    (hm : ¬∃ x ∈ m.toList, x ∈ s.given.map Prod.fst ∨ x ∈ s.calls.flatMap Call.mbufs) :
    Inv hash statics (s.lookup hash d m mem now) := by
  have hbegin (newe : Option (BitVec 64)) :
      Inv hash statics { s with calls := .cold d m newe::s.calls } :=
    { h with owned := h.owned.begin hm }
  unfold Sys.lookup
  split
  · split_ifs
    · exact h
    · exact hbegin none
  · split_ifs
    · exact hbegin _
    · exact h

theorem Inv.ageBucket (h : Inv hash statics s) {i : ℕ} (hi : i < arpTableCapacity)
    (nowUs : BitVec 64) (clock : Entry → BitVec 64) :
    Inv hash statics (s.ageBucket nowUs i clock) := by
  have hg := ages_arpAgeEntry nowUs clock
  obtain ⟨x,y,hxy,hupdate⟩ := Buckets.entries_update hi s.tbl
  have hcache := h.cache
  have howned := h.owned
  rw [entries,hxy] at hcache howned
  constructor
  case placed =>
    intro j a ha
    by_cases hj : j = i
    · subst hj
      simp only [Sys.ageBucket,Function.update_self,mem_filterMap] at ha
      obtain ⟨c,hc,hca⟩ := ha
      rw [(hg.aged hca).ip]
      exact h.placed j c hc
    · simp only [Sys.ageBucket,Function.update_of_ne hj] at ha
      exact h.placed j a ha
  case cache =>
    simp only [Sys.ageBucket,entries,hupdate]
    exact hcache.age hg
  case parked =>
    intro hp
    cases hp
  case owned =>
    simp only [Sys.ageBucket,entries,hupdate]
    exact howned.age hg

variable (hhash : ∀ ip, hash ip < arpTableCapacity)
include hhash

theorem Inv.locked {newe : Option (BitVec 64)}
    (h : Inv hash statics { s with calls := .cold d m newe::s.calls }) :
    Inv hash statics (s.locked hash d m newe) := by
  have hleave : Inv hash statics s := { h with owned := h.owned.leave }
  have hcache : Cache statics (entries s.tbl) s.nrDynamicEntries := h.cache
  have howned : Owned (entries s.tbl) (.cold d m newe::s.calls) _ _ _ _ := h.owned
  unfold Sys.locked
  split
  case h_1 e hfind =>
    split_ifs with hs
    · exact hleave
    · have hs : e.state = .probing := not_not.mp hs
      obtain ⟨x,y,hxy,hmod⟩ := entries_modifyEntry hhash hfind
      obtain rfl := lookupEntry_ip hfind
      rw [hxy] at hcache howned
      have hfits := hcache.fits e (by simp)
      constructor
      case placed => exact h.placed.modifyEntry hfind rfl
      case cache =>
        rw [hmod]
        exact hcache.modify rfl (by simp [Entry.isStatic,hs]) ⟨fun _ => hs,hfits.tries⟩
      case parked => exact h.parked
      case owned =>
        rw [hmod]
        exact howned.push
  case h_2 hfind =>
    have hfresh : ∀ a ∈ entries s.tbl, a.ip ≠ d := h.placed.absent hfind
    split
    case h_1 now =>
      let e := createEntry d now
      obtain ⟨x,y,hxy,hins⟩ := entries_addHead hhash s.tbl { e with q := m.toList }
      rw [hxy] at hcache howned hfresh
      constructor
      case placed => exact h.placed.addHead
      case cache =>
        simp only [Sys.give,Sys.insertEntry,e,hins] at hins ⊢
        exact hcache.insert hfresh rfl ⟨fun _ => rfl,le_rfl⟩
      case parked =>
        exact fun hp => absurd hp (hleave.insertEntry_worker { e with q := m.toList })
      case owned =>
        simp only [Sys.give,Sys.insertEntry,e,hins] at hins ⊢
        exact (howned.insert (e:=createEntry d now) rfl).push
    case h_2 =>
      have hcount (a : ℕ) : (queued (entries s.tbl)).count a+(m.toList++s.freed).count a =
          m.toList.count a+(queued (entries s.tbl)).count a+s.freed.count a := by
        rw [count_append]
        omega
      have hgive := howned.give hcount fun a ha z hz => .inr (howned.waits a ha z hz)
      exact { hleave with owned := hgive }

theorem Inv.update (h : Inv hash statics s) (d : Ip) (mac : Mac) (mem : Bool) (now : BitVec 64) :
    Inv hash statics (s.update hash d mac mem now) := by
  have hlearn : Inv hash statics { s with learned := (d,mac)::s.learned } :=
    { h with owned := h.owned.learn _ }
  have hcache := h.cache
  have howned := h.owned.learn (d,mac)
  simp only [Sys.update]
  split
  case h_1 hfind =>
    have hfresh := h.placed.absent hfind
    split_ifs
    · let e : Entry := { createEntry d now with eth := mac, state := .valid }
      obtain ⟨x,y,hxy,hins⟩ := entries_addHead hhash s.tbl e
      rw [hxy] at hcache howned hfresh
      constructor
      case placed => exact h.placed.addHead
      case cache =>
        simp only [Sys.insertEntry,e,hins] at hins ⊢
        exact hcache.insert hfresh rfl ⟨fun hq => absurd rfl hq,le_rfl⟩
      case parked => exact fun hp => absurd hp (hlearn.insertEntry_worker _)
      case owned =>
        simp only [Sys.insertEntry,e,hins] at hins ⊢
        exact howned.insert rfl
    · exact hlearn
  case h_2 e hfind =>
    split_ifs with hs
    · exact hlearn
    · obtain ⟨x,y,hxy,hmod⟩ := entries_modifyEntry hhash hfind
      obtain rfl := lookupEntry_ip hfind
      rw [hxy] at hcache howned
      have hstatic : e.isStatic = false := by simpa [Entry.isStatic] using hs
      have hfits := hcache.fits e (by simp)
      constructor
      case placed => exact h.placed.modifyEntry hfind rfl
      case cache =>
        rw [hmod]
        refine hcache.modify ?_ hstatic ⟨fun hq => absurd rfl hq,hfits.tries⟩
        rw [Entry.tag,Entry.tag,hstatic]
        rfl
      case parked => exact h.parked
      case owned =>
        rw [hmod]
        exact howned.take rfl mem_cons_self

theorem step_inv {ev : Event} (h : Inv hash statics s) (ht : step hash s ev = some t) :
    Inv hash statics t := by
  cases ev with
  | lookup d m mem now =>
    obtain ⟨hm,ht⟩ := Option.ite_none_left_eq_some.mp ht
    exact Option.some.inj ht ▸ h.lookup hm
  | update d mac mem now => exact Option.some.inj ht ▸ h.update hhash d mac mem now
  | act k =>
    simp only [step] at ht
    split at ht
    case h_1 => cases ht
    case h_2 hk => exact Option.some.inj ht ▸ (h.first hk).locked hhash
    case h_3 hk =>
      have hfirst := h.first hk
      exact Option.some.inj ht ▸ { hfirst with owned := hfirst.owned.drained }
    case h_4 hk =>
      have hfirst := h.first hk
      exact Option.some.inj ht ▸ { hfirst with owned := hfirst.owned.send }
  | wake now =>
    simp only [step] at ht
    split at ht
    case h_3 => cases ht
    all_goals exact Option.some.inj ht ▸ { h with parked := fun hp => by simp at hp }
  | age clock =>
    simp only [step] at ht
    split at ht
    case h_2 => cases ht
    case h_1 nowUs i hw =>
      by_cases hi : i < arpTableCapacity
      · rw [if_pos hi] at ht
        exact Option.some.inj ht ▸ h.ageBucket hi nowUs clock
      · rw [if_neg hi] at ht
        obtain rfl := Option.some.inj ht
        refine { h with parked := fun hp => ?_ }
        by_contra hne
        rw [if_neg hne] at hp
        cases hp

end Steps

/-! ### Runs -/

section Runs

variable {hash : Ip → ℕ} {statics : List Entry} {s t : Sys} {now : BitVec 64}
variable {cfg : List (Ip × Mac)} {evs : List Event}

theorem placed_foldl {tbl : ℕ → List Entry} (hp : Placed hash tbl) :
    Placed hash (statics.foldl (addHead hash) tbl) := by
  induction statics generalizing tbl with
  | nil => exact hp
  | cons e statics ih => exact ih hp.addHead

/-- Static entries can share an address, the others cannot. -/
theorem Cache.nodup_iff {es : List Entry} {nr : ℕ} (h : Cache statics es nr) :
    (es.map Entry.ip).Nodup ↔ (statics.map Entry.ip).Nodup := by
  rw [← h.statics]
  constructor
  · intro hnodup
    exact hnodup.sublist (filter_sublist.map _)
  · intro hnodup
    have hstatic := pairwise_filter.mp (pairwise_map.mp hnodup)
    refine pairwise_map.mpr (hstatic.imp₂ ?_ (pairwise_map.mp h.unique))
    intro a b hne hshare heq
    obtain ⟨ha,hb⟩ := hshare heq
    exact hne ha hb heq

variable (hhash : ∀ ip, hash ip < arpTableCapacity)
include hhash

theorem entries_foldl (statics : List Entry) (tbl : ℕ → List Entry) :
    entries (statics.foldl (addHead hash) tbl) ~ statics++entries tbl := by
  induction statics generalizing tbl with
  | nil =>
    rw [foldl_nil,nil_append]
  | cons e statics ih =>
    obtain ⟨x,y,hxy,hins⟩ := entries_addHead hhash tbl e
    refine (ih _).trans ?_
    rw [hins,hxy]
    exact (perm_middle.append_left _).trans perm_middle

theorem entries_staticTable :
    entries (staticTable hash now cfg) ~ cfg.map (staticEntry now) := by
  have hnil : entries (fun _ => []) = [] := flatMap_eq_nil_iff.mpr fun _ _ => rfl
  have hperm := entries_foldl hhash (cfg.map (staticEntry now)) fun _ => []
  rwa [hnil,append_nil] at hperm

theorem start_inv : Inv hash (entries (staticTable hash now cfg)) (start hash now cfg) := by
  have hstatic (e : Entry) (he : e ∈ entries (staticTable hash now cfg)) :
      e.isStatic = true ∧ e.q = [] ∧ e.triesLeft = arpRetries := by
    rw [(entries_staticTable hhash).mem_iff,mem_map] at he
    obtain ⟨c,-,rfl⟩ := he
    exact ⟨rfl,rfl,rfl⟩
  constructor
  case placed => exact placed_foldl fun i e he => absurd he not_mem_nil
  case cache =>
    constructor
    case unique =>
      refine pairwise_map.mpr (pairwise_of_forall_mem_list fun a ha b hb _ => ?_)
      exact ⟨(hstatic a ha).1,(hstatic b hb).1⟩
    case fits =>
      intro e he
      exact ⟨fun hq => absurd (hstatic e he).2.1 hq,(hstatic e he).2.2.le⟩
    case statics => exact filter_eq_self.mpr fun e he => (hstatic e he).1
    case count =>
      refine (countP_eq_zero.mpr fun e he => ?_).symm
      simp [(hstatic e he).1]
  case parked => exact fun _ => rfl
  case owned =>
    have hqueued : queued (entries (staticTable hash now cfg)) = [] :=
      flatMap_eq_nil_iff.mpr fun e he => (hstatic e he).2.1
    constructor
    case owned =>
      intro m
      rw [start,hqueued]
      rfl
    case fresh => exact nodup_nil
    case waits =>
      intro e he m hm
      rw [(hstatic e he).2.1] at hm
      cases hm
    case drains => exact fun _ _ _ hc => absurd hc not_mem_nil
    case sent => exact fun _ hp => absurd hp not_mem_nil

end Runs

/-! ### How long a packet waits -/

section Patience

variable {hash : Ip → ℕ} {statics x y b : List Entry} {s t : Sys} {e e' : Entry} {m : ℕ}
variable {nowUs : BitVec 64} {clock : Entry → BitVec 64}

/-- How often the worker can still find the packet's entry timed out. -/
def weight (m : ℕ) (e : Entry) : ℕ := if m ∈ e.q then e.triesLeft+1 else 0

def patience (m : ℕ) (es : List Entry) : ℕ := (es.map (weight m)).sum

def overdue (m : ℕ) (nowUs : BitVec 64) (e : Entry) : Bool :=
  m ∈ e.q && !decide (nowUs-e.ts < arpRetryTime)

/-- The worker finds the entry of packet `m` timed out. -/
def expires (m : ℕ) (s : Sys) : Event → Bool
  | .age _ =>
    match s.worker with
    | .scanning nowUs i => decide (i < arpTableCapacity) && (s.tbl i).any (overdue m nowUs)
    | _ => false
  | _ => false

/-- How often this happens in a run. -/
def expiries (hash : Ip → ℕ) (m : ℕ) : Sys → List Event → ℕ
  | _,[] => 0
  | s,ev::evs =>
    (expires m s ev).toNat+
      match step hash s ev with
      | none => 0
      | some t => expiries hash m t evs

@[simp] theorem patience_append : patience m (x++y) = patience m x+patience m y := by
  simp [patience]

@[simp] theorem patience_cons : patience m (e::x) = weight m e+patience m x := by
  simp [patience]

theorem weight_eq_zero (h : m ∉ e.q) : weight m e = 0 := if_neg h

theorem not_mem_queued {es : List Entry} (h : patience m es = 0) : m ∉ queued es := by
  intro hm
  obtain ⟨e,he,hq⟩ := mem_flatMap.mp hm
  obtain ⟨x,y,rfl⟩ := append_of_mem he
  simp [weight,hq] at h

theorem patience_le {es : List Entry} (h : ∀ e ∈ es, e.Fits) :
    patience m es ≤ (arpRetries+1)*(queued es).count m := by
  induction es with
  | nil => exact Nat.zero_le _
  | cons e es ih =>
    have hrest := ih fun a ha => h a (mem_cons_of_mem _ ha)
    have htries := (h e mem_cons_self).tries
    rw [patience_cons,queued,flatMap_cons,count_append,Nat.mul_add]
    refine Nat.add_le_add ?_ hrest
    by_cases hm : m ∈ e.q
    · rw [weight,if_pos hm]
      have hcount : 1 ≤ e.q.count m := count_pos_iff.mpr hm
      calc
        e.triesLeft+1 ≤ (arpRetries+1)*1 := by omega
        _ ≤ (arpRetries+1)*e.q.count m := Nat.mul_le_mul_left _ hcount
    · rw [weight_eq_zero hm]
      exact Nat.zero_le _

theorem weight_age (he : e.Fits) (hage : arpAgeEntry nowUs (clock e) e = some e') :
    weight m e'+(overdue m nowUs e).toNat ≤ weight m e := by
  have haged := arpAgeEntry_aged hage
  have hexp := fun hs hts => arpAgeEntry_expired (e:=e) hs hts hage
  have := he.probing
  simp only [weight,overdue,haged.q]
  by_cases hm : m ∈ e.q <;> by_cases hts : nowUs-e.ts < arpRetryTime <;> simp [hm,hts] <;> grind

theorem overdue_le_weight (m : ℕ) (nowUs : BitVec 64) (e : Entry) :
    (overdue m nowUs e).toNat ≤ weight m e := by
  have := Bool.toNat_le (overdue m nowUs e)
  by_cases hm : m ∈ e.q
  · grind [weight]
  · simp [overdue,hm]

theorem patience_age (m : ℕ) (nowUs : BitVec 64) (clock : Entry → BitVec 64)
    (hb : ∀ e ∈ b, e.Fits) :
    patience m (b.filterMap fun e => arpAgeEntry nowUs (clock e) e)+
      (b.any (overdue m nowUs)).toNat ≤ patience m b := by
  set g := fun e => arpAgeEntry nowUs (clock e) e with hg
  induction b with
  | nil => exact le_rfl
  | cons e b ih =>
    have hrest := ih fun a ha => hb a (mem_cons_of_mem _ ha)
    have hany : ((e::b).any (overdue m nowUs)).toNat ≤
        (overdue m nowUs e).toNat+(b.any (overdue m nowUs)).toNat := by
      rw [any_cons]
      cases overdue m nowUs e <;> cases b.any (overdue m nowUs) <;> decide
    rw [patience_cons]
    cases hage : g e with
    | none =>
      rw [filterMap_cons_none hage]
      have := overdue_le_weight m nowUs e
      omega
    | some e' =>
      rw [filterMap_cons_some hage,patience_cons]
      have := weight_age (m:=m) (hb e mem_cons_self) hage
      omega

theorem patience_ageBucket {i : ℕ} (h : Inv hash statics s) (hi : i < arpTableCapacity) :
    patience m (entries (s.ageBucket nowUs i clock).tbl)+
      ((s.tbl i).any (overdue m nowUs)).toNat ≤ patience m (entries s.tbl) := by
  obtain ⟨x,y,hxy,hupdate⟩ := Buckets.entries_update hi s.tbl
  have hfits := h.cache.fits
  simp only [Sys.ageBucket,entries,hupdate,hxy,patience_append] at hfits ⊢
  have := patience_age m nowUs clock (b:=s.tbl i) fun e he => hfits e (by simp [he])
  omega

variable (hhash : ∀ ip, hash ip < arpTableCapacity)
include hhash

theorem patience_locked {d : Ip} {n : Option ℕ} {newe : Option (BitVec 64)} (hm : m ∉ n.toList) :
    patience m (entries (s.locked hash d n newe).tbl) = patience m (entries s.tbl) := by
  unfold Sys.locked
  split
  case h_1 e hfind =>
    obtain ⟨x,y,hxy,hmod⟩ := entries_modifyEntry hhash hfind
    have hsame : weight m { e with q := e.q++n.toList } = weight m e := by simp [weight,hm]
    split_ifs
    · rfl
    · simp [hmod,hxy,hsame]
  case h_2 =>
    split
    case h_1 now =>
      obtain ⟨x,y,hxy,hins⟩ := entries_addHead hhash s.tbl { createEntry d now with q := n.toList }
      simp [Sys.give,Sys.insertEntry,hins,hxy,weight_eq_zero,hm]
    case h_2 => rfl

theorem patience_update (s : Sys) (d : Ip) (mac : Mac) (mem : Bool) (now : BitVec 64) :
    patience m (entries (s.update hash d mac mem now).tbl) ≤ patience m (entries s.tbl) := by
  simp only [Sys.update]
  split
  case h_1 =>
    obtain ⟨x,y,hxy,hins⟩ := entries_addHead hhash s.tbl
      { createEntry d now with eth := mac, state := .valid }
    split_ifs
    · simp only [Sys.insertEntry,hins,hxy,patience_append,patience_cons]
      simp [weight,createEntry]
    · exact le_rfl
  case h_2 hfind =>
    obtain ⟨x,y,hxy,hmod⟩ := entries_modifyEntry hhash hfind
    split_ifs
    · exact le_rfl
    · simp [hmod,hxy,weight]

omit hhash in
theorem given_locked {d : Ip} {n : Option ℕ} {newe : Option (BitVec 64)}
    (hm : m ∈ s.given.map Prod.fst) : m ∈ (s.locked hash d n newe).given.map Prod.fst := by
  unfold Sys.locked
  split <;> split <;> simp only [Sys.give,Sys.insertEntry,map_append,mem_append,hm,or_true]

omit hhash in
theorem given_update (s : Sys) (d : Ip) (mac : Mac) (mem : Bool) (now : BitVec 64) :
    (s.update hash d mac mem now).given = s.given := by
  grind [Sys.update,Sys.insertEntry]

omit hhash in
theorem lookup_keeps (s : Sys) (d : Ip) (n : Option ℕ) (mem : Bool) (now : BitVec 64) :
    (s.lookup hash d n mem now).tbl = s.tbl ∧ (s.lookup hash d n mem now).given = s.given := by
  grind [Sys.lookup]

omit hhash in
theorem patience_same (hm : m ∈ s.given.map Prod.fst) (htbl : t.tbl = s.tbl)
    (hgiven : t.given = s.given) :
    m ∈ t.given.map Prod.fst ∧ patience m (entries t.tbl)+false.toNat ≤ patience m (entries s.tbl) := by
  rw [htbl,hgiven]
  exact ⟨hm,(Nat.add_zero _).le⟩

/-- A packet that waits does so no longer than before, and has one try less when its entry has
timed out. -/
theorem step_patience {ev : Event} (h : Inv hash statics s) (hm : m ∈ s.given.map Prod.fst)
    (ht : step hash s ev = some t) :
    m ∈ t.given.map Prod.fst ∧
      patience m (entries t.tbl)+(expires m s ev).toNat ≤ patience m (entries s.tbl) := by
  cases ev with
  | lookup d n mem now =>
    obtain ⟨-,ht⟩ := Option.ite_none_left_eq_some.mp ht
    obtain rfl := Option.some.inj ht
    obtain ⟨htbl,hgiven⟩ := lookup_keeps s d n mem now
    exact patience_same hm htbl hgiven
  | update d mac mem now =>
    obtain rfl := Option.some.inj ht
    simp only [given_update,expires,Bool.toNat_false,Nat.add_zero]
    exact ⟨hm,patience_update hhash s d mac mem now⟩
  | act k =>
    simp only [step] at ht
    split at ht
    case h_1 => cases ht
    case h_2 d n newe hk =>
      obtain rfl := Option.some.inj ht
      have hfresh := (h.first hk).owned.fresh
      rw [flatMap_cons,← append_assoc] at hfresh
      have hn : m ∉ n.toList := disjoint_of_nodup_append hfresh.of_append_left hm
      simp only [expires,Bool.toNat_false,Nat.add_zero]
      exact ⟨given_locked hm,(patience_locked hhash hn).le⟩
    all_goals
      obtain rfl := Option.some.inj ht
      exact patience_same hm rfl rfl
  | wake now =>
    simp only [step] at ht
    split at ht
    case h_3 => cases ht
    all_goals
      obtain rfl := Option.some.inj ht
      exact patience_same hm rfl rfl
  | age clock =>
    simp only [step] at ht
    split at ht
    case h_2 => cases ht
    case h_1 nowUs i hw =>
      simp only [expires,hw]
      by_cases hi : i < arpTableCapacity
      · rw [if_pos hi] at ht
        obtain rfl := Option.some.inj ht
        rw [decide_eq_true hi,Bool.true_and]
        exact ⟨hm,patience_ageBucket h hi⟩
      · rw [if_neg hi] at ht
        obtain rfl := Option.some.inj ht
        rw [decide_eq_false hi,Bool.false_and]
        exact patience_same hm rfl rfl

theorem run_patience {evs : List Event} (h : Inv hash statics s) (hm : m ∈ s.given.map Prod.fst)
    (ht : run (step hash) s evs = some t) :
    patience m (entries t.tbl)+expiries hash m s evs ≤ patience m (entries s.tbl) := by
  induction evs generalizing s with
  | nil =>
    obtain rfl := Option.some.inj ht
    rw [expiries,Nat.add_zero]
  | cons ev evs ih =>
    obtain ⟨u,hu,hrun⟩ := Option.bind_eq_some_iff.mp ht
    obtain ⟨hmu,hstep⟩ := step_patience hhash h hm hu
    have := ih (step_inv hhash h hu) hmu hrun
    simp only [expiries,hu]
    omega

/-- A packet does not wait any more once the worker has found its entry timed out after the last
try. -/
theorem run_not_waiting {evs : List Event} (h : Inv hash statics s)
    (hm : m ∈ s.given.map Prod.fst) (ht : run (step hash) s evs = some t)
    (hexp : arpRetries < expiries hash m s evs) : m ∉ queued (entries t.tbl) := by
  have hcount : (queued (entries s.tbl)).count m ≤ 1 := by
    have := nodup_iff_count_le_one.mp h.owned.fresh.of_append_left m
    have := h.owned.owned m
    omega
  have hle : patience m (entries s.tbl) ≤ (arpRetries+1)*1 :=
    (patience_le h.cache.fits).trans (Nat.mul_le_mul_left _ hcount)
  have hrun := run_patience hhash h hm ht
  apply not_mem_queued
  omega

end Patience

/-! ### The cache as a whole -/

/-- What the cache promises in a state, apart from uniqueness; `statics` are the entries it has
begun with. -/
structure Kept (statics : List Entry) (s : Sys) : Prop where
  probing : ∀ e ∈ entries s.tbl, e.q ≠ [] → e.state = .probing
  once : ∀ p ∈ s.given,
    (queued (entries s.tbl)).count p.1+(s.calls.flatMap Call.taken).count p.1+
      (s.sent.map Prod.fst).count p.1+s.freed.count p.1 = 1
  sent : ∀ p ∈ s.sent, p.1 ∈ s.given.map Prod.fst ∧ ∀ d, (p.1,d) ∈ s.given → (d,p.2) ∈ s.learned
  static : (entries s.tbl).filter Entry.isStatic = statics
  count : s.nrDynamicEntries = (entries s.tbl).countP fun e => !e.isStatic
  parked : s.worker = .parked → s.nrDynamicEntries = 0

theorem Inv.kept {hash : Ip → ℕ} {statics : List Entry} {s : Sys} (h : Inv hash statics s) :
    Kept statics s where
  probing e he := (h.cache.fits e he).probing
  once p hp := by
    have hnodup := h.owned.fresh.of_append_left
    rw [← h.owned.owned,count_eq_one_of_mem hnodup (mem_map_of_mem hp)]
  sent p hp := by
    obtain ⟨d,hd,hl⟩ := h.owned.sent p hp
    refine ⟨mem_map_of_mem hd,fun d' hd' => ?_⟩
    have heq := inj_on_of_nodup_map h.owned.fresh.of_append_left hd hd' rfl
    injection heq with _ hdd
    exact hdd ▸ hl
  static := h.cache.statics
  count := h.cache.count
  parked := h.parked

theorem arp_cache_iff (hash : Ip → ℕ) (hhash : ∀ ip, hash ip < arpTableCapacity)
    (now : BitVec 64) (cfg : List (Ip × Mac)) :
    ((∀ evs s, run (step hash) (start hash now cfg) evs = some s →
        ((entries s.tbl).map Entry.ip).Nodup) ↔ (cfg.map Prod.fst).Nodup) ∧
      ∀ evs s, run (step hash) (start hash now cfg) evs = some s →
        Kept (entries (start hash now cfg).tbl) s ∧
        ∀ evs' t m, run (step hash) s evs' = some t → m ∈ s.given.map Prod.fst →
          arpRetries < expiries hash m s evs' → m ∉ queued (entries t.tbl) := by
  have hinv (evs : List Event) (s : Sys) (hs : run (step hash) (start hash now cfg) evs = some s) :
      Inv hash (entries (staticTable hash now cfg)) s :=
    run_keeps (fun h ht => step_inv hhash h ht) (start_inv hhash) hs
  have hips : ((entries (staticTable hash now cfg)).map Entry.ip).Nodup ↔
      (cfg.map Prod.fst).Nodup := by
    rw [((entries_staticTable hhash).map Entry.ip).nodup_iff,map_map]
    rfl
  refine ⟨⟨fun h => hips.mp (h [] (start hash now cfg) rfl),fun h evs s hs => ?_⟩,fun evs s hs => ⟨?_,?_⟩⟩
  · exact (hinv evs s hs).cache.nodup_iff.mpr (hips.mpr h)
  · exact (hinv evs s hs).kept
  · exact fun evs' t m ht hm => run_not_waiting hhash (hinv evs s hs) hm ht

def modHash (ip : Ip) : ℕ := ip.toNat%arpTableCapacity

theorem modHash_lt (ip : Ip) : modHash ip < arpTableCapacity :=
  Nat.mod_lt _ (Nat.succ_pos _)

/-- A lookup queues a packet, an answer comes, and the packet is sent. -/
theorem arp_cache_iff_answered :
    ∃ s ∈ run (step modHash) (start modHash 0 [(1,7)])
        [.lookup 2 (some 5) true 0,.act 0,.update 2 9 true 10,.act 0],
      s.sent = [(5,9)] ∧ ((entries s.tbl).map Entry.ip).Nodup ∧
        Kept (entries (start modHash 0 [(1,7)]).tbl) s := by
  obtain ⟨s,hs,hsent⟩ : ∃ s ∈ run (step modHash) (start modHash 0 [(1,7)])
      [.lookup 2 (some 5) true 0,.act 0,.update 2 9 true 10,.act 0], s.sent = [(5,9)] := by
    decide +kernel
  obtain ⟨hunique,hkept⟩ := arp_cache_iff modHash modHash_lt 0 [(1,7)]
  exact ⟨s,hs,hsent,hunique.mpr (by decide) _ s hs,(hkept _ s hs).1⟩

/-- Nothing checks the configured entries against each other. -/
theorem static_address_twice :
    ∃ s ∈ run (step modHash) (start modHash 0 [(1,7),(1,8)]) [],
      ¬((entries s.tbl).map Entry.ip).Nodup := by
  decide +kernel

end Vessel.Arp
