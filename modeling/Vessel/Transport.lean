import Vessel.Buckets
import Vessel.Machine
import Mathlib.Data.BitVec
import Mathlib.Data.List.Range

/-! The match table of the transport layer (`runtime/net/transport.c`).
Entries that match on three or on five fields share the buckets of one hash table. -/
namespace Vessel.Transport

open List

/-- `IPPROTO_UDP` and `IPPROTO_TCP`, the protocols that entries are made with. -/
inductive IpProto
  | udp
  | tcp
  deriving DecidableEq

def IpProto.ofNumber (n : BitVec 8) : Option IpProto :=
  if n = 17 then some .udp else if n = 6 then some .tcp else none

structure NetAddr where
  ip : BitVec 32
  port : BitVec 16
  deriving DecidableEq

inductive Match
  | threeTuple
  | fiveTuple
  deriving DecidableEq

/-- `struct trans_entry`, with its address. -/
structure Entry where
  id : ℕ
  mtch : Match
  proto : IpProto
  laddr : NetAddr
  raddr : NetAddr
  deriving DecidableEq

/-- `trans_hash_3tuple` and `trans_hash_5tuple`. -/
structure Hashes where
  three : IpProto → NetAddr → BitVec 32
  five : IpProto → NetAddr → NetAddr → BitVec 32

def transTblSize : ℕ := 16384

/-- The last field is history: the entries that are linked. -/
structure State where
  tbl : ℕ → List Entry
  ephemeralOffset : BitVec 32
  linked : List Entry

inductive Ret
  | ok
  | einval
  | eaddrinuse
  | eaddrnotavail
  deriving DecidableEq

/-- The test that `trans_table_add` makes on an entry of the bucket. -/
def conflicts (e pos : Entry) : Bool :=
  if pos.mtch ≠ e.mtch then false
  else if e.mtch = .threeTuple && e.proto = pos.proto && e.laddr.ip = pos.laddr.ip &&
      e.laddr.port = pos.laddr.port then true
  else e.proto = pos.proto && e.laddr.ip = pos.laddr.ip && e.laddr.port = pos.laddr.port &&
    e.raddr.ip = pos.raddr.ip && e.raddr.port = pos.raddr.port

def Hashes.bucket (h : Hashes) (e : Entry) : ℕ :=
  (match e.mtch with
    | .threeTuple => h.three e.proto e.laddr
    | .fiveTuple => h.five e.proto e.laddr e.raddr).toNat % transTblSize

def transTableAdd (h : Hashes) (s : State) (e : Entry) : State × Ret :=
  if e.laddr.port = 0 then (s,.einval)
  else
    let idx := h.bucket e
    if (s.tbl idx).any (conflicts e) then (s,.eaddrinuse)
    else
      ({ tbl := Function.update s.tbl idx (e::s.tbl idx)
         ephemeralOffset := s.ephemeralOffset+1
         linked := e::s.linked },.ok)

def minEphemeral : ℕ := 49152
def maxEphemeral : ℕ := 65535
def numEphemeral : ℕ := maxEphemeral-minEphemeral+1

def ephemeralPort (offset : BitVec 16) (next : ℕ) : BitVec 16 :=
  BitVec.ofNat 16 (minEphemeral+(next+offset.toNat) % numEphemeral)

def Entry.withPort (e : Entry) (port : BitVec 16) : Entry :=
  { e with laddr := { e.laddr with port := port } }

/-- How a search for a port ended, with the ports that were tried. -/
structure Search where
  state : State
  entry : Entry
  ret : Ret
  tried : List (BitVec 16)

/-- The loop, with `left` ports to go. -/
def tryPorts (h : Hashes) (offset : BitVec 16) : (left : ℕ) → State → Entry → Search
  | 0,s,e => ⟨s,e,.eaddrnotavail,[]⟩
  | left+1,s,e =>
    let port := ephemeralPort offset (numEphemeral-(left+1))
    match transTableAdd h s (e.withPort port) with
    | (s',.ok) => ⟨s',e.withPort port,.ok,[port]⟩
    | (s',_) =>
      let r := tryPorts h offset left s' (e.withPort port)
      { r with tried := port::r.tried }

def transTableAddWithEphemeralPort (h : Hashes) (s : State) (e : Entry) : Search :=
  let e := e.withPort 0
  let hash := match e.mtch with
    | .threeTuple => h.three e.proto e.laddr
    | .fiveTuple => h.five e.proto e.laddr e.raddr
  tryPorts h ((hash+s.ephemeralOffset).setWidth 16) numEphemeral s e

def transTableRemove (s : State) (id : ℕ) : State :=
  { s with
    tbl := fun i => (s.tbl i).filter fun e => e.id ≠ id
    linked := s.linked.filter fun e => e.id ≠ id }

/-- What `trans_lookup` reads of a packet; `length` is that of the transport part. -/
structure Packet where
  proto : BitVec 8
  length : ℕ
  saddr : BitVec 32
  daddr : BitVec 32
  sport : BitVec 16
  dport : BitVec 16

def transLookup (h : Hashes) (s : State) (m : Packet) : Option Entry :=
  match IpProto.ofNumber m.proto with
  | none => none
  | some proto =>
    if m.length < 4 then none
    else
      let laddr : NetAddr := ⟨m.daddr,m.dport⟩
      let raddr : NetAddr := ⟨m.saddr,m.sport⟩
      let five := (s.tbl ((h.five proto laddr raddr).toNat % transTblSize)).find? fun e =>
        e.mtch = .fiveTuple && e.proto = proto && e.laddr.ip = laddr.ip &&
          e.laddr.port = laddr.port && e.raddr.ip = raddr.ip && e.raddr.port = raddr.port
      let three := (s.tbl ((h.three proto laddr).toNat % transTblSize)).find? fun e =>
        e.mtch = .threeTuple && e.proto = proto && e.laddr.ip = laddr.ip &&
          e.laddr.port = laddr.port
      five.or three

/-! ### Calls -/

inductive Event
  | add (e : Entry)
  | addEphemeral (e : Entry)
  | remove (id : ℕ)

/-- An entry that is added is not linked yet, and one that is removed is. -/
def step (h : Hashes) (s : State) : Event → Option State
  | .add e =>
    if e.id ∈ s.linked.map Entry.id then none else some (transTableAdd h s e).1
  | .addEphemeral e =>
    if e.id ∈ s.linked.map Entry.id then none
    else some (transTableAddWithEphemeralPort h s e).state
  | .remove id => if id ∈ s.linked.map Entry.id then some (transTableRemove s id) else none

def start : State := ⟨fun _ => [],0,[]⟩

/-! ### Two maps -/

/-- What an entry is found by. -/
inductive Key
  | three (proto : IpProto) (laddr : NetAddr)
  | five (proto : IpProto) (laddr raddr : NetAddr)
  deriving DecidableEq

def Entry.key (e : Entry) : Key :=
  match e.mtch with
  | .threeTuple => .three e.proto e.laddr
  | .fiveTuple => .five e.proto e.laddr e.raddr

/-- A map for 3-tuples and a map for 5-tuples. -/
structure Maps where
  three : IpProto → NetAddr → Option Entry
  five : IpProto → NetAddr → NetAddr → Option Entry

def Maps.get (m : Maps) : Key → Option Entry
  | .three proto laddr => m.three proto laddr
  | .five proto laddr raddr => m.five proto laddr raddr

/-- The 5-tuple entry goes before the 3-tuple entry. -/
def Maps.lookup (m : Maps) (p : Packet) : Option Entry :=
  match IpProto.ofNumber p.proto with
  | none => none
  | some proto =>
    if p.length < 4 then none
    else
      match m.five proto ⟨p.daddr,p.dport⟩ ⟨p.saddr,p.sport⟩ with
      | some e => some e
      | none => m.three proto ⟨p.daddr,p.dport⟩

/-- What a call does to the maps. -/
inductive Maps.Step (m : Maps) : Event → Maps → Prop
  | added {e : Entry} {m' : Maps} (hport : e.laddr.port ≠ 0) (hfree : m.get e.key = none)
      (hm : ∀ k, m'.get k = if k = e.key then some e else m.get k) : Step m (.add e) m'
  | refused {e : Entry} (h : e.laddr.port = 0 ∨ m.get e.key ≠ none) : Step m (.add e) m
  | addedPort {e : Entry} {m' : Maps} (port : BitVec 16) (hport : minEphemeral ≤ port.toNat)
      (hfree : m.get (e.withPort port).key = none)
      (hm : ∀ k, m'.get k = if k = (e.withPort port).key then some (e.withPort port) else m.get k) :
      Step m (.addEphemeral e) m'
  | noPort {e : Entry}
      (h : ∀ port : BitVec 16, minEphemeral ≤ port.toNat → m.get (e.withPort port).key ≠ none) :
      Step m (.addEphemeral e) m
  | removed {e : Entry} {m' : Maps} (he : m.get e.key = some e)
      (hm : ∀ k, m'.get k = if k = e.key then none else m.get k) : Step m (.remove e.id) m'

/-- The maps have exactly the entries of the table. -/
def Represents (s : State) (m : Maps) : Prop :=
  ∀ k e, m.get k = some e ↔ (∃ i < transTblSize, e ∈ s.tbl i) ∧ e.key = k

/-! ### The table -/

/-- The bucket of a key. -/
def Hashes.idx (h : Hashes) : Key → ℕ
  | .three proto laddr => (h.three proto laddr).toNat % transTblSize
  | .five proto laddr raddr => (h.five proto laddr raddr).toNat % transTblSize

def Inv (h : Hashes) (s : State) : Prop := Buckets.Holds Entry.key h.idx s.tbl s.linked

/-- No linked entry has the key. -/
def Free (s : State) (k : Key) : Prop := ∀ b ∈ s.linked, b.key ≠ k

/-- The state with one more entry. -/
def State.link (s : State) (h : Hashes) (e : Entry) : State where
  tbl := Buckets.insert Entry.key h.idx s.tbl e
  ephemeralOffset := s.ephemeralOffset+1
  linked := e::s.linked

section Table

variable {h : Hashes} {s t : State} {e : Entry} {k : Key}

theorem idx_lt (h : Hashes) (k : Key) : h.idx k < transTblSize := by
  cases k <;> exact Nat.mod_lt _ (by decide)

theorem bucket_eq (h : Hashes) (e : Entry) : h.bucket e = h.idx e.key := by
  unfold Hashes.bucket Entry.key
  cases e.mtch <;> rfl

theorem conflicts_iff (e pos : Entry) : conflicts e pos = true ↔ pos.key = e.key := by
  obtain ⟨id,mtch,proto,⟨ip,port⟩,⟨ip',port'⟩⟩ := e
  obtain ⟨id₁,mtch₁,proto₁,⟨ip₁,port₁⟩,⟨ip₁',port₁'⟩⟩ := pos
  cases mtch <;> cases mtch₁ <;> simp [conflicts,Entry.key] <;> grind

theorem any_conflicts (hs : Inv h s) (e : Entry) :
    (s.tbl (h.bucket e)).any (conflicts e) = true ↔ ¬Free s e.key := by
  rw [any_eq_true,bucket_eq]
  constructor
  · rintro ⟨b,hb,hc⟩ hfree
    exact hfree b ((hs.mem _ b).mp hb).1 ((conflicts_iff e b).mp hc)
  · intro hno
    unfold Free at hno
    push Not at hno
    obtain ⟨b,hb,heq⟩ := hno
    exact ⟨b,(hs.mem _ b).mpr ⟨hb,by rw [heq]⟩,(conflicts_iff e b).mpr heq⟩

theorem transTableAdd_cases (hs : Inv h s) (e : Entry) :
    (e.laddr.port = 0 ∧ transTableAdd h s e = (s,.einval)) ∨
    (¬Free s e.key ∧ transTableAdd h s e = (s,.eaddrinuse)) ∨
    e.laddr.port ≠ 0 ∧ Free s e.key ∧ transTableAdd h s e = (s.link h e,.ok) := by
  unfold transTableAdd
  by_cases hport : e.laddr.port = 0
  · exact Or.inl ⟨hport,if_pos hport⟩
  rw [if_neg hport]
  dsimp only
  by_cases hfree : Free s e.key
  · have hno : ¬(s.tbl (h.bucket e)).any (conflicts e) = true :=
      fun hany => (any_conflicts hs e).mp hany hfree
    rw [if_neg hno,bucket_eq]
    exact Or.inr (Or.inr ⟨hport,hfree,rfl⟩)
  · rw [if_pos ((any_conflicts hs e).mpr hfree)]
    exact Or.inr (Or.inl ⟨hfree,rfl⟩)

theorem Inv.link (hs : Inv h s) (hfree : Free s e.key) : Inv h (s.link h e) :=
  Buckets.Holds.insert hs hfree

theorem transTableAdd_inv (hs : Inv h s) (e : Entry) : Inv h (transTableAdd h s e).1 := by
  rcases transTableAdd_cases hs e with ⟨-,heq⟩ | ⟨-,heq⟩ | ⟨-,hfree,heq⟩
  · rw [heq]
    exact hs
  · rw [heq]
    exact hs
  · rw [heq]
    exact hs.link hfree

end Table

/-! ### Ephemeral ports -/

section Ports

variable {h : Hashes} {s : State} {offset : BitVec 16} {next next' : ℕ}

theorem ephemeralPort_toNat (offset : BitVec 16) (next : ℕ) :
    (ephemeralPort offset next).toNat = minEphemeral+(next+offset.toNat) % numEphemeral := by
  have := Nat.mod_lt (next+offset.toNat) (show 0 < numEphemeral by decide)
  rw [ephemeralPort,BitVec.toNat_ofNat]
  apply Nat.mod_eq_of_lt
  simp only [numEphemeral,minEphemeral,maxEphemeral] at this ⊢
  omega

theorem ephemeralPort_ne_zero (offset : BitVec 16) (next : ℕ) : ephemeralPort offset next ≠ 0 := by
  intro heq
  have hnat := ephemeralPort_toNat offset next
  rw [heq] at hnat
  simp only [minEphemeral] at hnat
  exact absurd hnat (by simp; omega)

theorem ephemeralPort_inj (hn : next < numEphemeral) (hn' : next' < numEphemeral)
    (heq : ephemeralPort offset next = ephemeralPort offset next') : next = next' := by
  have hnat := congrArg BitVec.toNat heq
  rw [ephemeralPort_toNat,ephemeralPort_toNat] at hnat
  simp only [numEphemeral,minEphemeral,maxEphemeral] at *
  omega

theorem exists_ephemeralPort (offset : BitVec 16) {port : BitVec 16}
    (hport : minEphemeral ≤ port.toNat) :
    ∃ next < numEphemeral, ephemeralPort offset next = port := by
  have hlt := port.isLt
  have hoff := offset.isLt
  refine ⟨(port.toNat-minEphemeral+(numEphemeral-offset.toNat % numEphemeral)) % numEphemeral,
    Nat.mod_lt _ (by decide),?_⟩
  apply BitVec.eq_of_toNat_eq
  rw [ephemeralPort_toNat]
  simp only [numEphemeral,minEphemeral,maxEphemeral] at *
  omega

/-- The first free port is taken, from the one that the loop has come to. -/
theorem tryPorts_spec (hs : Inv h s) (offset : BitVec 16) (left : ℕ) (hleft : left ≤ numEphemeral)
    (e : Entry) : (∃ next, numEphemeral-left ≤ next ∧ next < numEphemeral ∧
      Free s (e.withPort (ephemeralPort offset next)).key ∧
      (tryPorts h offset left s e).ret = .ok ∧
      (tryPorts h offset left s e).state = s.link h (e.withPort (ephemeralPort offset next))) ∨
    (∀ next, numEphemeral-left ≤ next → next < numEphemeral →
      ¬Free s (e.withPort (ephemeralPort offset next)).key) ∧
      (tryPorts h offset left s e).ret = .eaddrnotavail ∧ (tryPorts h offset left s e).state = s := by
  induction left generalizing e with
  | zero => exact Or.inr ⟨fun next hge hlt => by omega,rfl,rfl⟩
  | succ left ih =>
    rw [tryPorts]
    dsimp only
    rcases transTableAdd_cases hs (e.withPort (ephemeralPort offset (numEphemeral-(left+1)))) with
      ⟨hport,-⟩ | ⟨htaken,heq⟩ | ⟨-,hfree,heq⟩
    · exact absurd hport (ephemeralPort_ne_zero _ _)
    · rw [heq]
      dsimp only
      rcases ih (by omega) (e.withPort (ephemeralPort offset (numEphemeral-(left+1)))) with
        ⟨next,hge,hlt,hfree,hret,hstate⟩ | ⟨hall,hret,hstate⟩
      · exact Or.inl ⟨next,by omega,hlt,hfree,hret,hstate⟩
      · refine Or.inr ⟨fun next hge hlt => ?_,hret,hstate⟩
        by_cases hfirst : next = numEphemeral-(left+1)
        · rw [hfirst]
          exact htaken
        · exact hall next (by omega) hlt
    · rw [heq]
      exact Or.inl ⟨_,le_refl _,by omega,hfree,rfl,rfl⟩

theorem tryPorts_tried (hs : Inv h s) (offset : BitVec 16) (left : ℕ) (hleft : left ≤ numEphemeral)
    (e : Entry) : ∃ n ≤ left, (tryPorts h offset left s e).tried =
      (List.range' (numEphemeral-left) n).map (ephemeralPort offset) := by
  induction left generalizing e with
  | zero => exact ⟨0,le_refl _,rfl⟩
  | succ left ih =>
    rw [tryPorts]
    dsimp only
    rcases transTableAdd_cases hs (e.withPort (ephemeralPort offset (numEphemeral-(left+1)))) with
      ⟨hport,-⟩ | ⟨-,heq⟩ | ⟨-,-,heq⟩
    · exact absurd hport (ephemeralPort_ne_zero _ _)
    · rw [heq]
      dsimp only
      obtain ⟨n,hn,htried⟩ := ih (by omega) (e.withPort (ephemeralPort offset (numEphemeral-(left+1))))
      refine ⟨n+1,by omega,?_⟩
      rw [htried,List.range'_succ,map_cons,show numEphemeral-(left+1)+1 = numEphemeral-left by omega]
    · rw [heq]
      exact ⟨1,by omega,rfl⟩

theorem tryPorts_nodup (hs : Inv h s) (e : Entry) :
    (tryPorts h offset numEphemeral s e).tried.Nodup := by
  obtain ⟨n,hn,htried⟩ := tryPorts_tried hs offset numEphemeral (le_refl _) e
  rw [htried,Nat.sub_self]
  refine List.Nodup.map_on (fun i hi j hj heq => ?_) (nodup_range' ..)
  rw [mem_range'_1] at hi hj
  exact ephemeralPort_inj (by omega) (by omega) heq

/-- The search ends well if and only if some port of the range is free. -/
theorem ephemeral_cases (hs : Inv h s) (e : Entry) :
    (∃ port : BitVec 16, minEphemeral ≤ port.toNat ∧ Free s (e.withPort port).key ∧
      (transTableAddWithEphemeralPort h s e).ret = .ok ∧
      (transTableAddWithEphemeralPort h s e).state = s.link h (e.withPort port)) ∨
    (∀ port : BitVec 16, minEphemeral ≤ port.toNat → ¬Free s (e.withPort port).key) ∧
      (transTableAddWithEphemeralPort h s e).ret = .eaddrnotavail ∧
      (transTableAddWithEphemeralPort h s e).state = s := by
  unfold transTableAddWithEphemeralPort
  dsimp only
  generalize BitVec.setWidth 16 _ = offset
  rcases tryPorts_spec hs offset numEphemeral (le_refl _) (e.withPort 0) with
    ⟨next,-,hlt,hfree,hret,hstate⟩ | ⟨hall,hret,hstate⟩
  · refine Or.inl ⟨ephemeralPort offset next,?_,hfree,hret,hstate⟩
    rw [ephemeralPort_toNat]
    exact Nat.le_add_right _ _
  · refine Or.inr ⟨fun port hport hfree => ?_,hret,hstate⟩
    obtain ⟨next,hlt,rfl⟩ := exists_ephemeralPort offset hport
    exact hall next (by omega) hlt hfree

theorem ephemeral_ok_iff (hs : Inv h s) (e : Entry) :
    (transTableAddWithEphemeralPort h s e).ret = .ok ↔
      ∃ port : BitVec 16, minEphemeral ≤ port.toNat ∧ Free s (e.withPort port).key := by
  rcases ephemeral_cases hs e with ⟨port,hport,hfree,hret,-⟩ | ⟨hall,hret,-⟩
  · exact iff_of_true hret ⟨port,hport,hfree⟩
  · rw [hret]
    refine iff_of_false (by decide) ?_
    rintro ⟨port,hport,hfree⟩
    exact hall port hport hfree

theorem ephemeral_inv (hs : Inv h s) (e : Entry) :
    Inv h (transTableAddWithEphemeralPort h s e).state := by
  rcases ephemeral_cases hs e with ⟨port,-,hfree,-,hstate⟩ | ⟨-,-,hstate⟩
  · rw [hstate]
    exact hs.link hfree
  · rw [hstate]
    exact hs

end Ports

/-! ### Runs -/

section Runs

variable {h : Hashes} {s t : State}

theorem start_inv (h : Hashes) : Inv h start := Buckets.holds_empty

theorem step_inv {ev : Event} (hs : Inv h s) (hstep : step h s ev = some t) : Inv h t := by
  cases ev with
  | add e =>
    obtain ⟨-,hstep⟩ := Option.ite_none_left_eq_some.mp hstep
    obtain rfl := Option.some.inj hstep
    exact transTableAdd_inv hs e
  | addEphemeral e =>
    obtain ⟨-,hstep⟩ := Option.ite_none_left_eq_some.mp hstep
    obtain rfl := Option.some.inj hstep
    exact ephemeral_inv hs e
  | remove id =>
    obtain ⟨-,hstep⟩ := Option.ite_none_right_eq_some.mp hstep
    obtain rfl := Option.some.inj hstep
    exact Buckets.Holds.filter hs _

/-- The two maps that the buckets stand for. -/
def maps (h : Hashes) (s : State) : Maps where
  three proto laddr := Buckets.lookup Entry.key h.idx s.tbl (.three proto laddr)
  five proto laddr raddr := Buckets.lookup Entry.key h.idx s.tbl (.five proto laddr raddr)

theorem maps_get (h : Hashes) (s : State) (k : Key) :
    (maps h s).get k = Buckets.lookup Entry.key h.idx s.tbl k := by
  cases k <;> rfl

theorem mem_linked_iff (hs : Inv h s) (e : Entry) :
    e ∈ s.linked ↔ ∃ i < transTblSize, e ∈ s.tbl i := by
  constructor
  · intro he
    exact ⟨h.idx e.key,idx_lt h _,(hs.mem _ e).mpr ⟨he,rfl⟩⟩
  · rintro ⟨i,-,he⟩
    exact ((hs.mem i e).mp he).1

theorem maps_represents (hs : Inv h s) : Represents s (maps h s) := by
  intro k e
  rw [maps_get,Buckets.Holds.lookup_eq_some hs,mem_linked_iff hs]

theorem free_iff (hs : Inv h s) (k : Key) : Free s k ↔ (maps h s).get k = none := by
  rw [maps_get,Buckets.Holds.lookup_eq_none hs]
  rfl

/-- The two searches of `trans_lookup` are those for the two keys of the packet. -/
theorem transLookup_eq (h : Hashes) (s : State) (p : Packet) :
    transLookup h s p = (maps h s).lookup p := by
  unfold transLookup Maps.lookup
  cases IpProto.ofNumber p.proto with
  | none => rfl
  | some proto =>
    dsimp only
    split
    · rfl
    have hfive : ∀ e : Entry, (e.mtch = .fiveTuple && e.proto = proto && e.laddr.ip = p.daddr &&
        e.laddr.port = p.dport && e.raddr.ip = p.saddr && e.raddr.port = p.sport : Bool) =
        decide (e.key = .five proto ⟨p.daddr,p.dport⟩ ⟨p.saddr,p.sport⟩) := by
      rintro ⟨id,mtch,proto',⟨ip,port⟩,⟨ip',port'⟩⟩
      cases mtch <;> simp [Entry.key,Bool.and_assoc]
    have hthree : ∀ e : Entry, (e.mtch = .threeTuple && e.proto = proto && e.laddr.ip = p.daddr &&
        e.laddr.port = p.dport : Bool) =
        decide (e.key = .three proto ⟨p.daddr,p.dport⟩) := by
      rintro ⟨id,mtch,proto',⟨ip,port⟩,⟨ip',port'⟩⟩
      cases mtch <;> simp [Entry.key,Bool.and_assoc]
    simp only [hfive,hthree]
    change Option.or ((maps h s).five proto ⟨p.daddr,p.dport⟩ ⟨p.saddr,p.sport⟩)
      ((maps h s).three proto ⟨p.daddr,p.dport⟩) = _
    cases (maps h s).five proto ⟨p.daddr,p.dport⟩ ⟨p.saddr,p.sport⟩ <;> rfl

theorem maps_link {e : Entry} (hs : Inv h s) (hfree : Free s e.key) (k : Key) :
    (maps h (s.link h e)).get k = if k = e.key then some e else (maps h s).get k := by
  have hlink := hs.link hfree
  rw [maps_get,maps_get]
  split
  · rename_i hk
    exact (Buckets.Holds.lookup_eq_some hlink).mpr ⟨mem_cons_self,hk.symm⟩
  · rename_i hk
    apply Option.ext
    intro b
    rw [Buckets.Holds.lookup_eq_some hlink,Buckets.Holds.lookup_eq_some hs]
    constructor
    · rintro ⟨hb,heq⟩
      rcases mem_cons.mp hb with rfl | hb
      · exact absurd heq.symm hk
      · exact ⟨hb,heq⟩
    · rintro ⟨hb,heq⟩
      exact ⟨mem_cons_of_mem _ hb,heq⟩

/-- Linked entries are known by their addresses. -/
def Distinct (s : State) : Prop := (s.linked.map Entry.id).Nodup

theorem maps_remove {e : Entry} (hs : Inv h s) (hid : Distinct s) (he : e ∈ s.linked) (k : Key) :
    (maps h (transTableRemove s e.id)).get k = if k = e.key then none else (maps h s).get k := by
  have hremove : Inv h (transTableRemove s e.id) := Buckets.Holds.filter hs _
  have hmem : ∀ b, b ∈ (transTableRemove s e.id).linked ↔ b ∈ s.linked ∧ b ≠ e := by
    intro b
    change b ∈ s.linked.filter _ ↔ _
    rw [mem_filter,decide_eq_true_eq]
    refine and_congr_right fun hb => not_congr ⟨fun heq => ?_,fun heq => by rw [heq]⟩
    exact inj_on_of_nodup_map hid hb he heq
  apply Option.ext
  intro b
  rw [maps_get,Buckets.Holds.lookup_eq_some hremove,hmem]
  split
  · rename_i hk
    constructor
    · rintro ⟨⟨hb,hne⟩,heq⟩
      exact absurd (inj_on_of_nodup_map hs.keys hb he (heq.trans hk)) hne
    · simp
  · rename_i hk
    rw [maps_get,Buckets.Holds.lookup_eq_some hs]
    constructor
    · rintro ⟨⟨hb,-⟩,heq⟩
      exact ⟨hb,heq⟩
    · rintro ⟨hb,heq⟩
      refine ⟨⟨hb,?_⟩,heq⟩
      rintro rfl
      exact hk heq.symm

theorem step_maps {ev : Event} (hs : Inv h s) (hid : Distinct s) (hstep : step h s ev = some t) :
    (maps h s).Step ev (maps h t) ∧ Distinct t := by
  cases ev with
  | add e =>
    obtain ⟨hnew,hstep⟩ := Option.ite_none_left_eq_some.mp hstep
    obtain rfl := Option.some.inj hstep
    rcases transTableAdd_cases hs e with ⟨hport,heq⟩ | ⟨hno,heq⟩ | ⟨hport,hfree,heq⟩
    · rw [heq]
      exact ⟨.refused (Or.inl hport),hid⟩
    · rw [heq]
      rw [free_iff hs] at hno
      exact ⟨.refused (Or.inr hno),hid⟩
    · rw [heq]
      exact ⟨.added hport ((free_iff hs _).mp hfree) (maps_link hs hfree),
        nodup_cons.mpr ⟨hnew,hid⟩⟩
  | addEphemeral e =>
    obtain ⟨hnew,hstep⟩ := Option.ite_none_left_eq_some.mp hstep
    obtain rfl := Option.some.inj hstep
    rcases ephemeral_cases hs e with ⟨port,hport,hfree,-,heq⟩ | ⟨hno,-,heq⟩
    · rw [heq]
      exact ⟨.addedPort port hport ((free_iff hs _).mp hfree) (maps_link hs hfree),
        nodup_cons.mpr ⟨hnew,hid⟩⟩
    · rw [heq]
      refine ⟨.noPort fun port hport => ?_,hid⟩
      rw [Ne,← free_iff hs]
      exact hno port hport
  | remove id =>
    obtain ⟨hin,hstep⟩ := Option.ite_none_right_eq_some.mp hstep
    obtain rfl := Option.some.inj hstep
    obtain ⟨e,he,rfl⟩ := mem_map.mp hin
    refine ⟨.removed ?_ (maps_remove hs hid he),hid.sublist (filter_sublist.map _)⟩
    rw [maps_get]
    exact (Buckets.Holds.lookup_eq_some hs).mpr ⟨he,rfl⟩

/-- The table is a pair of maps: no two entries have the same key, a packet gets its 5-tuple entry
or else its 3-tuple entry, a port is found whenever one is free, with no port tried twice, and
every call does to the table what it does to the maps. -/
theorem trans_table_refines {es : List Event}
    (hrun : Machine.run (step h) start es = some s) :
    (∀ i < transTblSize, ∀ e ∈ s.tbl i, ∀ j < transTblSize, ∀ e' ∈ s.tbl j,
      e.key = e'.key → e = e') ∧
    ∃ m, Represents s m ∧ (∀ p, transLookup h s p = m.lookup p) ∧
      (∀ e, ((transTableAddWithEphemeralPort h s e).ret = .ok ↔
          ∃ port : BitVec 16, minEphemeral ≤ port.toNat ∧ m.get (e.withPort port).key = none) ∧
        (transTableAddWithEphemeralPort h s e).tried.Nodup) ∧
      ∀ ev t, step h s ev = some t → ∃ m', Represents t m' ∧ m.Step ev m' := by
  obtain ⟨hs,hid⟩ : Inv h s ∧ Distinct s := by
    refine Machine.run_keeps (P:=fun s => Inv h s ∧ Distinct s) (fun hs hstep => ?_)
      ⟨start_inv h,nodup_nil⟩ hrun
    exact ⟨step_inv hs.1 hstep,(step_maps hs.1 hs.2 hstep).2⟩
  refine ⟨fun i hi e he j hj e' he' heq => ?_,maps h s,maps_represents hs,transLookup_eq h s,
    fun e => ⟨?_,tryPorts_nodup hs _⟩,fun ev t hstep => ?_⟩
  · have hmem := (mem_linked_iff hs e).mpr ⟨i,hi,he⟩
    have hmem' := (mem_linked_iff hs e').mpr ⟨j,hj,he'⟩
    exact inj_on_of_nodup_map hs.keys hmem hmem' heq
  · rw [ephemeral_ok_iff hs]
    simp only [free_iff hs]
  · exact ⟨maps h t,maps_represents (step_inv hs hstep),(step_maps hs hid hstep).1⟩

end Runs

/-- All entries stand in one bucket. -/
def oneBucket : Hashes := ⟨fun _ _ => 7,fun _ _ _ => 7⟩

def listener : Entry := ⟨1,.threeTuple,.tcp,⟨1,80⟩,⟨0,0⟩⟩

def dialed : Entry := ⟨2,.fiveTuple,.tcp,⟨1,0⟩,⟨2,80⟩⟩

theorem trans_table_refines_dial : ∃ s,
    Machine.run (step oneBucket) start [.add listener,.addEphemeral dialed] = some s ∧
    transLookup oneBucket s ⟨6,20,2,1,80,80⟩ = some listener ∧
    ∃ m, Represents s m ∧ m.three .tcp ⟨1,80⟩ = some listener := by
  obtain ⟨s,hrun,hfound,hnone⟩ : ∃ s ∈ Machine.run (step oneBucket) start
      [.add listener,.addEphemeral dialed],
      transLookup oneBucket s ⟨6,20,2,1,80,80⟩ = some listener ∧ listener ∈ s.tbl 7 := by
    decide +kernel
  obtain ⟨-,m,hm,-⟩ := trans_table_refines hrun
  exact ⟨s,hrun,hfound,m,hm,(hm (.three .tcp ⟨1,80⟩) listener).mpr ⟨⟨7,by decide,hnone⟩,rfl⟩⟩

end Vessel.Transport
