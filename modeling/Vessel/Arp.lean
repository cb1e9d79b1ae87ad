import Vessel.Buckets
import Vessel.Machine
import Mathlib.Data.BitVec

/-! The ARP cache (`runtime/net/arp.c`) with the packets that wait for an address.
The unlocked lookup of `arp_lookup`, its locked section, the locked section of `arp_update`, each
packet that it sends afterwards, and each bucket of a round of the worker are separate steps. -/
namespace Vessel.Arp

abbrev Ip := BitVec 32
abbrev Mac := BitVec 48

inductive EntryState
  | probing
  | valid
  | validButReprobing
  | static
  deriving DecidableEq

/-- `struct arp_entry`; mbufs are known by a number. -/
structure Entry where
  state : EntryState
  ip : Ip
  eth : Mac
  q : List ℕ
  ts : BitVec 64
  triesLeft : ℕ
  deriving DecidableEq

def Entry.isStatic (e : Entry) : Bool := e.state = .static

def arpTableCapacity : ℕ := 1024

def arpRetries : ℕ := 3

/-- `ARP_RETRY_TIME`, in microseconds. -/
def arpRetryTime : BitVec 64 := 1000000

def arpReprobeTime : BitVec 64 := 10*arpRetryTime

/-- A call in progress: `arp_lookup` before its locked section, with the entry that it has created
(the time of its creation), or `arp_update` with the packets it has taken. -/
inductive Call
  | cold (daddr : Ip) (m : Option ℕ) (newe : Option (BitVec 64))
  | draining (daddr : Ip) (dhost : Mac) (q : List ℕ)
  deriving DecidableEq

/-- The worker waits to be made ready, sleeps for a second, or is at a bucket of its round, which
started at a time. -/
inductive Worker
  | parked
  | sleeping
  | scanning (nowUs : BitVec 64) (i : ℕ)
  | ready
  deriving DecidableEq

/-- The last four fields are history: the packets that `arp_lookup` has kept with their addresses,
those that were sent with the hardware address, those that were freed, and what was learned. -/
structure Sys where
  tbl : ℕ → List Entry
  nrDynamicEntries : ℕ
  worker : Worker
  calls : List Call
  given : List (ℕ × Ip)
  sent : List (ℕ × Mac)
  freed : List ℕ
  learned : List (Ip × Mac)

/-- Change the first element that satisfies `p`. -/
def modifyFirst {α : Type} (p : α → Bool) (f : α → α) : List α → List α
  | [] => []
  | a::as => if p a then f a::as else a::modifyFirst p f as

section Model

variable (hash : Ip → ℕ)

def lookupEntry (tbl : ℕ → List Entry) (daddr : Ip) : Option Entry :=
  (tbl (hash daddr)).find? fun e => e.ip = daddr

/-- A change of the entry that `lookup_entry` returns. -/
def modifyEntry (tbl : ℕ → List Entry) (daddr : Ip) (f : Entry → Entry) : ℕ → List Entry :=
  Function.update tbl (hash daddr) (modifyFirst (fun e => e.ip = daddr) f (tbl (hash daddr)))

def createEntry (daddr : Ip) (now : BitVec 64) : Entry := ⟨.probing,daddr,0,[],now,arpRetries⟩

def addHead (tbl : ℕ → List Entry) (e : Entry) : ℕ → List Entry :=
  Function.update tbl (hash e.ip) (e::tbl (hash e.ip))

/-- `insert_entry` for an entry that is not static; the first one makes the worker ready. -/
def Sys.insertEntry (s : Sys) (e : Entry) : Sys :=
  { s with
    tbl := addHead hash s.tbl e
    nrDynamicEntries := s.nrDynamicEntries+1
    worker := if s.nrDynamicEntries+1 = 1 ∧ s.worker = .parked then .ready else s.worker }

/-- The mbuf is ARP's from now on. -/
def Sys.give (s : Sys) (m : Option ℕ) (daddr : Ip) : Sys :=
  { s with given := m.toList.map (fun m => (m,daddr))++s.given }

/-- The unlocked part of `arp_lookup`; `mem` says whether `smalloc` succeeds. -/
def Sys.lookup (s : Sys) (daddr : Ip) (m : Option ℕ) (mem : Bool) (now : BitVec 64) : Sys :=
  match lookupEntry hash s.tbl daddr with
  | some e =>
    if e.state ≠ .probing then s else { s with calls := .cold daddr m none::s.calls }
  | none => if mem then { s with calls := .cold daddr m (some now)::s.calls } else s

/-- The locked section of `arp_lookup` and what comes after it. -/
def Sys.locked (s : Sys) (daddr : Ip) (m : Option ℕ) (newe : Option (BitVec 64)) : Sys :=
  match lookupEntry hash s.tbl daddr with
  | some e =>
    if e.state ≠ .probing then s
    else { s.give m daddr with
      tbl := modifyEntry hash s.tbl daddr fun e => { e with q := e.q++m.toList } }
  | none =>
    match newe with
    | some now => (s.insertEntry hash { createEntry daddr now with q := m.toList }).give m daddr
    -- the entry was removed in between
    | none => { s.give m daddr with freed := m.toList++s.freed }

/-- The locked section of `arp_update`. -/
def Sys.update (s : Sys) (daddr : Ip) (dhost : Mac) (mem : Bool) (now : BitVec 64) : Sys :=
  let s := { s with learned := (daddr,dhost)::s.learned }
  match lookupEntry hash s.tbl daddr with
  | none =>
    if mem then
      s.insertEntry hash { createEntry daddr now with eth := dhost, state := .valid }
    else s
  | some e =>
    if e.state = .static then s
    else { s with
      tbl := modifyEntry hash s.tbl daddr fun e =>
        { e with eth := dhost, ts := now, state := .valid, q := [] }
      calls := .draining daddr dhost e.q::s.calls }

def Entry.timeout (e : Entry) : BitVec 64 :=
  if e.state = .valid then arpReprobeTime else arpRetryTime

/-- `arp_age_entry`: none if the entry is deleted. -/
def arpAgeEntry (nowUs now : BitVec 64) (e : Entry) : Option Entry :=
  if nowUs-e.ts < e.timeout then some e
  else
    match e.state with
    | .probing | .validButReprobing =>
      if e.triesLeft = 0 then none else some { e with triesLeft := e.triesLeft-1, ts := now }
    | .valid => some { e with state := .validButReprobing, triesLeft := arpRetries, ts := now }
    | .static => some e

/-- The worker at bucket `i`; a deleted entry's packets are freed. -/
def Sys.ageBucket (s : Sys) (nowUs : BitVec 64) (i : ℕ) (clock : Entry → BitVec 64) : Sys :=
  let dead := (s.tbl i).filter fun e => (arpAgeEntry nowUs (clock e) e).isNone
  { s with
    tbl := Function.update s.tbl i ((s.tbl i).filterMap fun e => arpAgeEntry nowUs (clock e) e)
    nrDynamicEntries := s.nrDynamicEntries-dead.length
    freed := dead.flatMap Entry.q++s.freed
    worker := .scanning nowUs (i+1) }

def Call.mbufs : Call → List ℕ
  | .cold _ m _ => m.toList
  | .draining _ _ _ => []

/-- An event of call `k` is its next step; `clock` gives the time when an entry is looked at. -/
inductive Event
  | lookup (daddr : Ip) (m : Option ℕ) (mem : Bool) (now : BitVec 64)
  | update (daddr : Ip) (dhost : Mac) (mem : Bool) (now : BitVec 64)
  | act (k : ℕ)
  | wake (now : BitVec 64)
  | age (clock : Entry → BitVec 64)

/-- Callers pass mbufs that are theirs. -/
def step (s : Sys) : Event → Option Sys
  | .lookup daddr m mem now =>
    if ∃ x ∈ m.toList, x ∈ s.given.map Prod.fst ∨ x ∈ s.calls.flatMap Call.mbufs then none
    else some (s.lookup hash daddr m mem now)
  | .update daddr dhost mem now => some (s.update hash daddr dhost mem now)
  | .act k =>
    match s.calls[k]? with
    | none => none
    | some (.cold daddr m newe) =>
      some (({ s with calls := s.calls.eraseIdx k } : Sys).locked hash daddr m newe)
    | some (.draining _ _ []) => some { s with calls := s.calls.eraseIdx k }
    | some (.draining daddr dhost (m::q)) =>
      some { s with
        calls := .draining daddr dhost q::s.calls.eraseIdx k
        sent := (m,dhost)::s.sent }
  | .wake now =>
    match s.worker with
    | .ready | .sleeping => some { s with worker := .scanning now 0 }
    | _ => none
  | .age clock =>
    match s.worker with
    | .scanning nowUs i =>
      if i < arpTableCapacity then some (s.ageBucket nowUs i clock)
      else some { s with worker := if s.nrDynamicEntries = 0 then .parked else .sleeping }
    | _ => none

def staticEntry (now : BitVec 64) (c : Ip × Mac) : Entry :=
  { createEntry c.1 now with eth := c.2, state := .static }

/-- `arp_init_late` inserts the static entries. -/
def staticTable (now : BitVec 64) (cfg : List (Ip × Mac)) : ℕ → List Entry :=
  (cfg.map (staticEntry now)).foldl (addHead hash) fun _ => []

/-- After `arp_init_late`: the worker has been created and waits for the first entry. -/
def start (now : BitVec 64) (cfg : List (Ip × Mac)) : Sys :=
  ⟨staticTable hash now cfg,0,.parked,[],[],[],[],[]⟩

end Model

def entries (tbl : ℕ → List Entry) : List Entry := Buckets.entries arpTableCapacity tbl

/-- The packets that wait in the entries. -/
def queued (es : List Entry) : List ℕ := es.flatMap Entry.q

/-- The packets that an `arp_update` has taken and not sent yet. -/
def Call.taken : Call → List ℕ
  | .cold _ _ _ => []
  | .draining _ _ q => q

end Vessel.Arp
