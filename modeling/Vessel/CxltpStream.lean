import Mathlib.Tactic.Common
import Vessel.Machine
import Vessel.SlotRing

/-! One direction of a cxltp connection: the writing end splits a buffer over messages of fixed
size and puts them into the ring, the reading end takes them out of it piece by piece. -/
namespace Vessel

open List
namespace Cxltp

/-- The size of `struct cxltp_package_headr`. -/
def sizeofHeader : ℕ := 24

def msgBufSize : ℕ := 2048

def msgRingLength : ℕ := 32

inductive PackageType where
  | error
  | data
  | abort
  | toFree
deriving DecidableEq, Repr

/-- A message buffer: the fields of its header, and the bytes at each distance from its start.
Every message has memory of its own. -/
structure Msg where
  type : PackageType
  head : ℕ
  size : ℕ
  mem : ℕ → UInt8

/-- Where `m + sizeof(*m) + k` points to: the sum counts headers and not bytes. -/
def elemOffset (k : ℕ) : ℕ := (sizeofHeader+k)*sizeofHeader

def Msg.copyIn (m : Msg) (off : ℕ) (bytes : List UInt8) : Msg :=
  { m with mem := fun i => if off ≤ i then bytes.getD (i-off) (m.mem i) else m.mem i }

def Msg.copyOut (m : Msg) (off len : ℕ) : List UInt8 := (List.range len).map fun i => m.mem (off+i)

/-- A call of `cxltp_write` or, when `nonblocking` is set, of `cxltp_try_write`. -/
structure Call where
  nonblocking : Bool
  buf : List UInt8
  writelen : ℕ

inductive Writer where
  | idle
  | loop (k : Call)
  | filled (k : Call) (m : Msg)
  | aborted

/-- Both ends with their ring.  `written` is what finished calls have reported as written, `read`
what reads have returned, and `copies` the offset and length of each `memcpy` to or from a
message. -/
structure Sys where
  ring : SlotRing msgRingLength (Option Msg)
  writer : Writer
  shutdown : Bool
  written : List UInt8
  read : List UInt8
  copies : List (ℕ × ℕ)

/-- `cxltp_tx_ring_alloc` clears the slots of a new ring. -/
def Sys.init : Sys where
  ring := ⟨fun _ => none,⟨0,by decide⟩,⟨0,by decide⟩⟩
  writer := .idle
  shutdown := false
  written := []
  read := []
  copies := []

/-- The message buffer for the next chunk: the one the slot still has, or a new one. -/
def Sys.buffer (s : Sys) (k : Call) (fresh : Option (ℕ → UInt8)) : Option Msg :=
  if k.nonblocking ∧ s.ring.Full then none
  else match s.ring.slot s.ring.head with
    | some m => if m.type = .error then none else some m
    | none => fresh.map fun mem => ⟨.data,0,0,mem⟩

/-- What a call returns that gets no buffer: an error code for an error package, otherwise
`writelen`. -/
def Sys.giveUp (s : Sys) (k : Call) : Sys :=
  if ¬(k.nonblocking ∧ s.ring.Full) ∧ ∃ m ∈ s.ring.slot s.ring.head, m.type = .error
    then { s with writer := .idle }
    else { s with writer := .idle,written := s.written++k.buf.take k.writelen }

def payloadSize : ℕ := msgBufSize-sizeofHeader

def Call.clen (k : Call) : ℕ :=
  if payloadSize > k.buf.length-k.writelen then k.buf.length-k.writelen else payloadSize

/-- The first half of a round of the loop in `cxltp_write_wait` and `cxltp_do_write`.  The source
of the copy is `pos`, which no round advances. -/
def Sys.fill (s : Sys) (k : Call) (fresh : Option (ℕ → UInt8)) : Sys :=
  match s.buffer k fresh with
  | none => s.giveUp k
  | some m =>
    { s with
      writer := .filled k
        { m.copyIn (elemOffset 0) (k.buf.take k.clen) with type := .data,head := 0,size := k.clen }
      copies := s.copies++[(elemOffset 0,k.clen)] }

/-- `do_write_payload` and the end of the round. -/
def Sys.publish (s : Sys) (k : Call) (m : Msg) : Option Sys :=
  if s.ring.Full then
    if k.nonblocking then some { s with writer := .idle,written := s.written++k.buf.take k.writelen }
    else none
  else
    let s := { s with ring := s.ring.push (some m) }
    let k := { k with writelen := k.writelen+k.clen }
    if k.writelen = k.buf.length then
      some { s with writer := .idle,written := s.written++k.buf.take k.writelen }
    else some { s with writer := .loop k }

/-- The message a read gets its bytes from. -/
def Sys.front (s : Sys) : Option Msg :=
  if s.ring.Empty then none else s.ring.slot s.ring.tail

/-- `cxltp_do_read`, which `cxltp_read_wait` repeats once it has found a message. -/
def Sys.doRead (s : Sys) (m : Msg) (len : ℕ) : Sys :=
  if s.shutdown then s
  else if m.type = .error then { s with shutdown := true,ring := s.ring.pop }
  else if m.size > len then
    { s with
      ring := s.ring.setFront (some { m with size := m.size-len,head := m.head+len })
      read := s.read++m.copyOut (elemOffset m.head) len
      copies := s.copies++[(elemOffset m.head,len)] }
  else
    { s with
      ring := (s.ring.setFront (some { m with type := .toFree })).pop
      read := s.read++m.copyOut (elemOffset m.head) m.size
      copies := s.copies++[(elemOffset m.head,m.size)] }

/-- The part of the vectors that `cxltp_writev` gathers in a buffer of `winlen` bytes. -/
def gather : ℕ → List (List UInt8) → List UInt8
  | _,[] => []
  | winlen,v::iov =>
    if winlen = 0 ∨ winlen < v.length then [] else v++gather (winlen-v.length) iov

inductive Event where
  | write (buf : List UInt8)
  | tryWrite (buf : List UInt8)
  | writev (iov : List (List UInt8))
  | fill (fresh : Option (ℕ → UInt8))
  | publish
  | read (len : ℕ)
  | tryRead (len : ℕ)

/-- A call enters its loop only if there is something to write; otherwise it runs into
`abort()`. -/
def Sys.call (s : Sys) (k : Call) : Option Sys :=
  match s.writer with
  | .idle => some { s with writer := if k.writelen < k.buf.length then .loop k else .aborted }
  | _ => none

def step (s : Sys) : Event → Option Sys
  | .write buf => s.call ⟨false,buf,0⟩
  | .tryWrite buf => s.call ⟨true,buf,0⟩
  | .writev iov => s.call ⟨false,gather payloadSize iov,0⟩
  | .fill fresh =>
    match s.writer with
    | .loop k => some (s.fill k fresh)
    | _ => none
  | .publish =>
    match s.writer with
    | .filled k m => s.publish k m
    | _ => none
  | .read len => s.front.map fun m => s.doRead m len
  | .tryRead len =>
    -- an empty ring gives -EAGAIN
    if s.ring.Empty then some s else s.front.map fun m => s.doRead m len

/-! ### Payload bounds -/

/-- Every byte of the copy lies in the message buffer, after the header. -/
def Inside (copy : ℕ × ℕ) : Prop :=
  ∀ i < copy.2, sizeofHeader ≤ copy.1+i ∧ copy.1+i < msgBufSize

/-- How many bytes fit between the first payload byte and the end of the buffer. -/
def payloadRoom : ℕ := msgBufSize-elemOffset 0

/-- The chunk that the step copies, if it copies one, ends before the buffer does. -/
def bounded (s : Sys) : Event → Prop
  | .fill fresh =>
    match s.writer with
    | .loop k => (s.buffer k fresh).isSome → k.buf.length-k.writelen ≤ payloadRoom
    | _ => True
  | .read len | .tryRead len => ∀ m ∈ s.front,s.shutdown = false → m.type ≠ .error →
      min len m.size = 0 ∨ sizeofHeader*m.head+min len m.size ≤ payloadRoom
  | _ => True

instance (copy : ℕ × ℕ) : Decidable (Inside copy) := inferInstanceAs (Decidable (∀ _ < _,_))

instance (s : Sys) : (e : Event) → Decidable (bounded s e)
  | .fill fresh =>
    match h : s.writer with
    | .loop k => decidable_of_iff
      ((s.buffer k fresh).isSome → k.buf.length-k.writelen ≤ payloadRoom) (by simp [bounded,h])
    | .idle | .filled _ _ | .aborted => isTrue (by simp [bounded,h])
  | .read _ | .tryRead _ => inferInstanceAs (Decidable (∀ m ∈ s.front,_))
  | .write _ | .tryWrite _ | .writev _ | .publish => instDecidableTrue

variable {s t : Sys} {e : Event} {k : Call} {m : Msg} {len : ℕ}

theorem inside_elemOffset (h n : ℕ) :
    Inside (elemOffset h,n) ↔ n = 0 ∨ sizeofHeader*h+n ≤ payloadRoom := by
  simp only [Inside,elemOffset,payloadRoom,sizeofHeader,msgBufSize]
  constructor
  · intro hin
    by_cases hn : n = 0
    · exact .inl hn
    · have := hin (n-1) (by omega)
      omega
  · intro hfit i hi
    omega

theorem clen_eq_min (k : Call) : k.clen = min (k.buf.length-k.writelen) payloadSize := by
  unfold Call.clen
  split <;> omega

theorem fill_copies (s : Sys) (k : Call) (fresh : Option (ℕ → UInt8)) :
    ∃ cs, (s.fill k fresh).copies = s.copies++cs ∧ ((∀ c ∈ cs,Inside c) ↔
      ((s.buffer k fresh).isSome → k.buf.length-k.writelen ≤ payloadRoom)) := by
  unfold Sys.fill
  cases hbuf : s.buffer k fresh with
  | none =>
    have hgive : (s.giveUp k).copies = s.copies := by
      unfold Sys.giveUp
      split <;> rfl
    exact ⟨[],by simpa using hgive,by simp⟩
  | some m =>
    refine ⟨[(elemOffset 0,k.clen)],rfl,?_⟩
    rw [forall_mem_singleton,inside_elemOffset,clen_eq_min]
    simp only [Option.isSome_some,forall_const,payloadSize,payloadRoom,elemOffset,sizeofHeader,
      msgBufSize]
    omega

theorem publish_copies (h : s.publish k m = some t) : t.copies = s.copies := by
  unfold Sys.publish at h
  dsimp only at h
  split_ifs at h <;> cases h <;> rfl

theorem doRead_copies (s : Sys) (m : Msg) (len : ℕ) :
    ∃ cs, (s.doRead m len).copies = s.copies++cs ∧ ((∀ c ∈ cs,Inside c) ↔
      (s.shutdown = false → m.type ≠ .error →
        min len m.size = 0 ∨ sizeofHeader*m.head+min len m.size ≤ payloadRoom)) := by
  unfold Sys.doRead
  split_ifs with hdown herr hpart
  · exact ⟨[],by simp,by simp [hdown]⟩
  · exact ⟨[],by simp,by simp [herr]⟩
  · refine ⟨[(elemOffset m.head,len)],rfl,?_⟩
    simp [inside_elemOffset,hdown,herr,Nat.min_eq_left (Nat.le_of_lt hpart)]
  · refine ⟨[(elemOffset m.head,m.size)],rfl,?_⟩
    simp [inside_elemOffset,hdown,herr,Nat.min_eq_right (Nat.not_lt.mp hpart)]

/-- A step adds the copies it makes, and they are inside exactly if the step is bounded. -/
theorem step_copies (h : step s e = some t) :
    ∃ cs, t.copies = s.copies++cs ∧ ((∀ c ∈ cs,Inside c) ↔ bounded s e) := by
  have hcall {k : Call} (h : s.call k = some t) : t.copies = s.copies++[] := by
    unfold Sys.call at h
    split at h <;> cases h
    simp
  cases e with
  | write | tryWrite | writev => exact ⟨[],hcall h,by simp [bounded]⟩
  | fill fresh =>
    simp only [step,bounded] at h ⊢
    split at h <;> cases h
    exact fill_copies s _ fresh
  | publish =>
    simp only [step] at h
    split at h
    · exact ⟨[],by simp [publish_copies h],by simp [bounded]⟩
    · cases h
  | read len =>
    obtain ⟨m,hm,rfl⟩ := Option.map_eq_some_iff.mp h
    simpa [bounded,hm] using doRead_copies s m len
  | tryRead len =>
    simp only [step] at h
    split_ifs at h with hempty
    · cases h
      exact ⟨[],by simp,by simp [bounded,Sys.front,hempty]⟩
    · obtain ⟨m,hm,rfl⟩ := Option.map_eq_some_iff.mp h
      simpa [bounded,hm] using doRead_copies s m len

/-- Over a whole run: all copies are inside their buffers exactly if every step was bounded. -/
theorem run_copies_iff {es : List Event} (h : Machine.run step s es = some t) :
    (∀ c ∈ t.copies,Inside c) ↔ (∀ c ∈ s.copies,Inside c) ∧ Machine.Along step bounded s es := by
  induction es generalizing s with
  | nil =>
    cases h
    simp [Machine.Along]
  | cons e es ih =>
    obtain ⟨u,hu,hrun⟩ := Option.bind_eq_some_iff.mp h
    obtain ⟨cs,hcs,hiff⟩ := step_copies hu
    have hall : (∀ c ∈ u.copies,Inside c) ↔ (∀ c ∈ s.copies,Inside c) ∧ bounded s e := by
      rw [hcs,forall_mem_append,hiff]
    have hu : step s e = some u := hu
    simp only [Machine.Along,hu,Option.mem_some_iff,forall_eq',ih hrun,hall,and_assoc]

theorem copies_inside_iff {es : List Event} (h : Machine.run step .init es = some t) :
    (∀ c ∈ t.copies,Inside c) ↔ Machine.Along step bounded .init es := by
  rw [run_copies_iff h]
  simp [Sys.init]

/-- The memory of a buffer that has never been used. -/
def blank : ℕ → UInt8 := fun _ => 0

theorem copies_inside_iff_parts :
    ∃ t ∈ Machine.run step .init [.write [1,2,3],.fill (some blank),.publish,.read 2,.read 1],
      ∀ c ∈ t.copies,Inside c := by
  obtain ⟨t,ht,-⟩ : ∃ t ∈ Machine.run step .init
      [.write [1,2,3],.fill (some blank),.publish,.read 2,.read 1],True := by decide +kernel
  exact ⟨t,ht,(copies_inside_iff ht).mpr (by decide +kernel)⟩

/-- A write of 1473 bytes, and the second half of a message of 100 bytes. -/
theorem copies_outside :
    (∃ t ∈ Machine.run step .init [.write (List.replicate 1473 7),.fill (some blank)],
      ∃ c ∈ t.copies,¬Inside c) ∧
    ∃ t ∈ Machine.run step .init
      [.write (List.replicate 100 7),.fill (some blank),.publish,.read 62,.read 38],
      ∃ c ∈ t.copies,¬Inside c := by
  constructor <;> decide +kernel

/-! ### The stream of bytes -/

/-- The bytes reported as written, with those of the call in progress that are in the ring. -/
def Sys.accepted (s : Sys) : List UInt8 :=
  s.written++match s.writer with
    | .loop k | .filled k _ => k.buf.take k.writelen
    | _ => []

/-- A call needs one message only, and a read starts at the first byte of a message. -/
def whole (s : Sys) : Event → Prop
  | .write buf | .tryWrite buf => buf.length ≤ payloadSize
  | .read _ | .tryRead _ => ∀ m ∈ s.front,m.head = 0
  | _ => True

instance (s : Sys) : (e : Event) → Decidable (whole s e)
  | .write _ | .tryWrite _ => Nat.decLe _ _
  | .read _ | .tryRead _ => inferInstanceAs (Decidable (∀ m ∈ s.front,_))
  | .writev _ | .fill _ | .publish => instDecidableTrue

/-- The bytes of a message that have not been read. -/
def rest : Option Msg → List UInt8
  | none => []
  | some m => m.copyOut (elemOffset 0+m.head) m.size

/-- A call of the loop that has not put anything into the ring and needs one message. -/
structure Call.Single (k : Call) : Prop where
  writelen : k.writelen = 0
  pos : 0 < k.buf.length
  le : k.buf.length ≤ payloadSize

def Clean (o : Option Msg) : Prop := ∀ m ∈ o,m.type ≠ .error

structure Streams (s : Sys) : Prop where
  shutdown : s.shutdown = false
  clean : ∀ i,Clean (s.ring.slot i)
  loop : ∀ k,s.writer = .loop k → k.Single
  filled : ∀ k m,s.writer = .filled k m → k.Single ∧ m.type ≠ .error ∧ rest (some m) = k.buf
  stream : s.written = s.read++s.ring.toList.flatMap rest

theorem length_gather (winlen : ℕ) (iov : List (List UInt8)) :
    (gather winlen iov).length ≤ winlen := by
  induction iov generalizing winlen with
  | nil => simp [gather]
  | cons v iov ih =>
    rw [gather]
    split_ifs with hfull
    · simp
    · have := ih (winlen-v.length)
      simp only [length_append]
      omega

@[simp] theorem length_copyOut (m : Msg) (off n : ℕ) : (m.copyOut off n).length = n := by
  simp [Msg.copyOut]

theorem copyOut_copyIn (m : Msg) (off : ℕ) (bytes : List UInt8) :
    (m.copyIn off bytes).copyOut off bytes.length = bytes := by
  apply ext_getElem (by simp)
  intro i hi hi'
  simp [Msg.copyOut,Msg.copyIn,hi']

theorem copyOut_add (m : Msg) (off n n' : ℕ) :
    m.copyOut off (n+n') = m.copyOut off n++m.copyOut (off+n) n' := by
  simp [Msg.copyOut,range_add,Nat.add_assoc]

theorem streams_init : Streams .init where
  shutdown := rfl
  clean := by simp [Sys.init,Clean]
  loop := by simp [Sys.init]
  filled := by simp [Sys.init]
  stream := by
    have hempty : Sys.init.ring.Empty := by simp [SlotRing.Empty,Sys.init]
    rw [SlotRing.toList_of_empty hempty]
    rfl

theorem Streams.call (h : Streams s) (hk : k.writelen = 0) (hle : k.buf.length ≤ payloadSize)
    (hcall : s.call k = some t) : Streams t := by
  unfold Sys.call at hcall
  split at hcall <;> cases hcall
  refine ⟨h.shutdown,h.clean,?_,?_,h.stream⟩
  · intro k' hw
    dsimp only at hw
    split_ifs at hw with hlt
    cases hw
    exact ⟨hk,by omega,hle⟩
  · intro k' m hw
    dsimp only at hw
    split_ifs at hw

theorem Streams.fill (h : Streams s) (hw : s.writer = .loop k) (fresh : Option (ℕ → UInt8)) :
    Streams (s.fill k fresh) := by
  obtain ⟨hzero,hpos,hle⟩ := h.loop k hw
  unfold Sys.fill
  cases hbuf : s.buffer k fresh with
  | none =>
    -- nothing of the call is in the ring yet
    have hgive : s.giveUp k = { s with writer := .idle } := by
      simp [Sys.giveUp,hzero]
    rw [hgive]
    exact ⟨h.shutdown,h.clean,nofun,nofun,h.stream⟩
  | some m =>
    refine ⟨h.shutdown,h.clean,nofun,?_,h.stream⟩
    intro k' m' hw'
    cases hw'
    have hclen : k.clen = k.buf.length := by
      rw [clen_eq_min,hzero]
      omega
    refine ⟨⟨hzero,hpos,hle⟩,by simp,?_⟩
    rw [hclen,take_length]
    exact copyOut_copyIn m (elemOffset 0) k.buf

theorem Streams.publish (h : Streams s) (hw : s.writer = .filled k m)
    (hpub : s.publish k m = some t) : Streams t := by
  obtain ⟨⟨hzero,hpos,hle⟩,htype,hrest⟩ := h.filled k m hw
  have hclen : k.clen = k.buf.length := by
    rw [clen_eq_min,hzero]
    omega
  unfold Sys.publish at hpub
  simp only [hzero,hclen,Nat.zero_add,if_true,take_zero,append_nil,
    take_length] at hpub
  split_ifs at hpub with hfull <;> cases hpub
  · exact ⟨h.shutdown,h.clean,nofun,nofun,h.stream⟩
  · refine ⟨h.shutdown,?_,nofun,nofun,?_⟩
    · exact SlotRing.forall_slot_push (by simpa [Clean] using htype) h.clean
    · simp [SlotRing.toList_push hfull,h.stream,hrest]

theorem Streams.doRead (h : Streams s) (hm : s.front = some m) (hhead : m.head = 0) (len : ℕ) :
    Streams (s.doRead m len) := by
  unfold Sys.front at hm
  split_ifs at hm with hempty
  have htype : m.type ≠ .error := h.clean _ m hm
  have hstream : s.written = s.read++(m.copyOut (elemOffset 0) m.size++
      s.ring.pop.toList.flatMap rest) := by
    rw [h.stream,SlotRing.toList_eq_cons hempty,hm]
    simp [rest,hhead]
  unfold Sys.doRead
  rw [if_neg (by simp [h.shutdown]),if_neg htype]
  split_ifs with hpart
  · refine ⟨h.shutdown,SlotRing.forall_slot_setFront (by simpa [Clean] using htype) h.clean,
      h.loop,h.filled,?_⟩
    have hsplit := copyOut_add m (elemOffset 0) len (m.size-len)
    rw [Nat.add_sub_of_le (Nat.le_of_lt hpart)] at hsplit
    rw [SlotRing.toList_setFront hempty,hhead,hstream,hsplit]
    simp [rest,Msg.copyOut]
  · refine ⟨h.shutdown,SlotRing.forall_slot_setFront (by simp [Clean]) h.clean,
      h.loop,h.filled,?_⟩
    rw [SlotRing.toList_pop_setFront hempty,hhead,hstream,append_assoc]

theorem Streams.step (h : Streams s) (hok : whole s e) (hstep : step s e = some t) :
    Streams t := by
  cases e with
  | write buf => exact h.call (k:=⟨false,buf,0⟩) rfl hok hstep
  | tryWrite buf => exact h.call (k:=⟨true,buf,0⟩) rfl hok hstep
  | writev iov => exact h.call rfl (length_gather payloadSize iov) hstep
  | fill fresh =>
    simp only [Cxltp.step] at hstep
    split at hstep <;> cases hstep
    exact h.fill ‹_› fresh
  | publish =>
    simp only [Cxltp.step] at hstep
    split at hstep
    · exact h.publish ‹_› hstep
    · cases hstep
  | read len =>
    obtain ⟨m,hm,rfl⟩ := Option.map_eq_some_iff.mp hstep
    exact h.doRead hm (hok m hm) len
  | tryRead len =>
    simp only [Cxltp.step] at hstep
    split_ifs at hstep
    · cases hstep
      exact h
    · obtain ⟨m,hm,rfl⟩ := Option.map_eq_some_iff.mp hstep
      exact h.doRead hm (hok m hm) len

theorem read_in_order {es : List Event} (hok : Machine.Along step whole .init es)
    (h : Machine.run step .init es = some t) : t.read <+: t.accepted := by
  have hinv : Streams t := Machine.run_invariant Streams.step streams_init hok h
  rw [Sys.accepted,hinv.stream,append_assoc]
  exact prefix_append _ _

theorem read_in_order_two_writes :
    ∃ t ∈ Machine.run step .init [.write [1,2,3],.fill (some blank),.publish,.tryWrite [4,5],.read 9,
        .fill (some blank),.publish,.tryRead 1],
      t.read = [1,2,3,4] ∧ t.read <+: t.accepted := by
  obtain ⟨t,ht,hread⟩ : ∃ t ∈ Machine.run step .init [.write [1,2,3],.fill (some blank),.publish,
      .tryWrite [4,5],.read 9,.fill (some blank),.publish,.tryRead 1],t.read = [1,2,3,4] := by
    decide +kernel
  exact ⟨t,ht,hread,read_in_order (by decide +kernel) ht⟩

/-- The second read of a message takes its byte from the wrong place, and the second message of a
write of 2025 bytes has the first byte of the buffer again. -/
theorem read_out_of_order :
    (∃ t ∈ Machine.run step .init [.write [1,2],.fill (some blank),.publish,.read 1,.read 1],
      t.written = [1,2] ∧ t.read = [1,0] ∧ ¬t.read <+: t.accepted) ∧
    ∃ t ∈ Machine.run step .init [.write (1::List.replicate 2024 2),.fill (some blank),.publish,
        .fill (some blank),.publish],
      t.written.getLast? = some 2 ∧ rest (t.ring.slot ⟨1,by decide⟩) = [1] := by
  constructor <;> decide +kernel

end Cxltp
end Vessel
