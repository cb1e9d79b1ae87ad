import Vessel.CxltpStream

/-! The ring of message pointers between the two ends of a cxltp connection.  The ends share `head`,
`tail` and the slots without a lock, so every access to one of them is a step. -/
namespace Vessel
namespace CxltpRing

open Cxltp SlotRing

abbrev Pos := Fin msgRingLength

/-- The writing end, by what it does next.  `nb` tells `cxltp_do_write`, which does not wait for
room, from `cxltp_write_wait` and `send_rst`. -/
inductive Writer (P : Type) where
  | idle
  /-- `can_write_payload`. -/
  | check
  | checkBound (newHead : Pos)
  | curHead (nb : Bool)
  /-- The test of `*cur_head`, the read of its type and the read into `m`. -/
  | test (nb : Bool) (cur : Pos)
  | type (nb : Bool) (cur : Pos)
  | load (nb : Bool) (cur : Pos)
  | alloc (nb : Bool)
  | fill (nb : Bool) (m : P)
  /-- `do_write_payload`. -/
  | readHead (nb : Bool) (m : P)
  | bound (nb : Bool) (m : P) (newHead : Pos)
  | addr (m : P) (newHead : Pos)
  | slot (m : P) (newHead cur : Pos)
  | publish (m : P) (newHead : Pos)
deriving Repr

/-- The reading end. -/
inductive Reader (P : Type) where
  | idle
  /-- `try_read_payload`, which may read `head` or `tail` first. -/
  | gotHead (head : Pos)
  | gotTail (tail : Pos)
  | addr
  | load (tail : Pos)
  /-- The message is read, which may leave a part of it in the ring. -/
  | holds (m : P)
  /-- `do_pop_payload`. -/
  | pop (m : P)
  | popNext (m : P)
  | popWrite (m : P) (newTail : Pos)
deriving Repr

/-- Both ends and the ring.  `pushed` and `popped` are bookkeeping: the pointers that `head` was
moved over, and those that `tail` was. -/
structure Sys (P : Type) where
  ring : SlotRing msgRingLength (Option P)
  writer : Writer P
  reader : Reader P
  pushed : List P
  popped : List P

inductive Event (P : Type) where
  /-- A round of a write begins. -/
  | write (nb : Bool)
  | writer
  /-- What `tcache_alloc` returns. -/
  | alloc (m : Option P)
  /-- The write ends with an error: an error package, or a connection that is shut down. -/
  | abandon
  | read (headFirst : Bool)
  | reader
  /-- The read ends and the message stays in the ring. -/
  | leave
deriving Repr

variable {P : Type}

theorem msgRingLength_pos : 0 < msgRingLength := by decide

def Sys.init : Sys P :=
  ⟨⟨fun _ => none,⟨0,msgRingLength_pos⟩,⟨0,msgRingLength_pos⟩⟩,.idle,.idle,[],[]⟩

def Sys.writerStep (s : Sys P) : Option (Sys P) :=
  match s.writer with
  | .check => some { s with writer := .checkBound (next s.ring.head) }
  | .checkBound newHead =>
    some { s with writer := if newHead ≠ s.ring.tail then .curHead true else .idle }
  | .curHead nb => some { s with writer := .test nb s.ring.head }
  | .test nb cur =>
    some { s with writer := if (s.ring.slot cur).isSome then .type nb cur else .alloc nb }
  | .type nb cur => if (s.ring.slot cur).isSome then some { s with writer := .load nb cur } else none
  | .load nb cur => some { s with writer := (s.ring.slot cur).elim .idle (.fill nb) }
  | .fill nb m => some { s with writer := .readHead nb m }
  | .readHead nb m => some { s with writer := .bound nb m (next s.ring.head) }
  | .bound nb m newHead => some { s with
      writer := if newHead ≠ s.ring.tail then .addr m newHead else if nb then .idle else .readHead nb m }
  | .addr m newHead => some { s with writer := .slot m newHead s.ring.head }
  | .slot m newHead cur => some { s with
      ring := { s.ring with slot := Function.update s.ring.slot cur (some m) }
      writer := .publish m newHead }
  | .publish m newHead => some { s with
      ring := { s.ring with head := newHead }
      writer := .idle
      pushed := s.pushed++[m] }
  | .idle | .alloc _ => none

/-- A buffer from the cache is in no slot: the ones that are have not been given back. -/
def Sys.alloc [DecidableEq P] (s : Sys P) (m : Option P) : Option (Sys P) :=
  match s.writer with
  | .alloc nb => match m with
    | none => some { s with writer := .idle }
    | some m => if ∀ i, s.ring.slot i ≠ some m then some { s with writer := .fill nb m } else none
  | _ => none

def Sys.abandon (s : Sys P) : Option (Sys P) :=
  match s.writer with
  | .load .. | .fill .. => some { s with writer := .idle }
  | _ => none

def Sys.readerStep (s : Sys P) : Option (Sys P) :=
  match s.reader with
  | .gotHead head => some { s with reader := if head ≠ s.ring.tail then .addr else .idle }
  | .gotTail tail => some { s with reader := if s.ring.head ≠ tail then .addr else .idle }
  | .addr => some { s with reader := .load s.ring.tail }
  | .load tail => (s.ring.slot tail).map fun m => { s with reader := .holds m }
  | .holds m => some { s with reader := .pop m }
  | .pop m => some { s with
      reader := if s.ring.tail.val+1 = msgRingLength then .popWrite m ⟨0,msgRingLength_pos⟩
        else .popNext m }
  | .popNext m =>
    if h : s.ring.tail.val+1 < msgRingLength then
      some { s with reader := .popWrite m ⟨s.ring.tail.val+1,h⟩ }
    else none
  | .popWrite m newTail => some { s with
      ring := { s.ring with tail := newTail }
      reader := .idle
      popped := s.popped++[m] }
  | .idle => none

def step [DecidableEq P] (s : Sys P) : Event P → Option (Sys P)
  | .write nb => match s.writer with
    | .idle => some { s with writer := if nb then .check else .curHead false }
    | _ => none
  | .writer => s.writerStep
  | .alloc m => s.alloc m
  | .abandon => s.abandon
  | .read headFirst => match s.reader with
    | .idle => some { s with
        reader := if headFirst then .gotHead s.ring.head else .gotTail s.ring.tail }
    | _ => none
  | .reader => s.readerStep
  | .leave => match s.reader with
    | .holds _ => some { s with reader := .idle }
    | _ => none

def run [DecidableEq P] (es : List (Event P)) : Option (Sys P) := Machine.run step Sys.init es

/-- The buffer that the writer has chosen and is filling or putting into the ring. -/
def Writer.buffer : Writer P → Option P
  | .fill _ m | .readHead _ m | .bound _ m _ | .addr m _ | .slot m _ _ | .publish m _ => some m
  | _ => none

/-! ### What both ends rely on -/

section Ends

variable {r : SlotRing msgRingLength (Option P)} {w : Writer P} {rd : Reader P} {m : P}

/-- Only the slot that is written next may have `m`. -/
def Owned (r : SlotRing msgRingLength (Option P)) (m : P) : Prop := ∀ i, r.slot i = some m → i = r.head

def WriterOk (r : SlotRing msgRingLength (Option P)) : Writer P → Prop
  | .test _ cur | .type _ cur | .load _ cur => cur = r.head
  | .fill _ m | .readHead _ m => Owned r m
  | .bound _ m newHead => Owned r m ∧ newHead = next r.head
  | .addr m newHead => Owned r m ∧ newHead = next r.head ∧ ¬r.Full
  | .slot m newHead cur => Owned r m ∧ newHead = next r.head ∧ ¬r.Full ∧ cur = r.head
  | .publish m newHead => Owned r m ∧ newHead = next r.head ∧ ¬r.Full ∧ r.slot r.head = some m
  | .idle | .check | .checkBound _ | .curHead _ | .alloc _ => True

def ReaderOk (r : SlotRing msgRingLength (Option P)) : Reader P → Prop
  | .idle => True
  | .gotHead head => head ≠ r.tail → ¬r.Empty
  | .gotTail tail => tail = r.tail
  | .addr => ¬r.Empty
  | .load tail => ¬r.Empty ∧ tail = r.tail
  | .holds m | .pop m | .popNext m => ¬r.Empty ∧ r.slot r.tail = some m
  | .popWrite m newTail => ¬r.Empty ∧ r.slot r.tail = some m ∧ newTail = next r.tail

theorem WriterOk.owned (h : WriterOk r w) (hm : w.buffer = some m) : Owned r m := by
  cases w <;> simp_all [WriterOk,Writer.buffer]

theorem Owned.not_mem_toList (h : Owned r m) : some m ∉ r.toList := by
  intro hm
  obtain ⟨i,hi,hslot⟩ := exists_of_mem_toList hm
  exact hi (h i hslot)

theorem WriterOk.pop (h : WriterOk r w) (hne : ¬r.Empty) : WriterOk r.pop w := by
  have hfull : ¬r.pop.Full := fun hfull => hne (next_injective hfull)
  cases w with
  | addr m newHead => exact ⟨h.1,h.2.1,hfull⟩
  | slot m newHead cur => exact ⟨h.1,h.2.1,hfull,h.2.2.2⟩
  | publish m newHead => exact ⟨h.1,h.2.1,hfull,h.2.2.2⟩
  | _ => exact h

/-- The slot that is written next is not the one that is read next. -/
theorem ReaderOk.setNext {x : Option P} (h : ReaderOk r rd) : ReaderOk (r.setNext x) rd := by
  have hslot : ¬r.Empty → (r.setNext x).slot r.tail = r.slot r.tail := fun hne =>
    Function.update_of_ne (Ne.symm hne) ..
  cases rd with
  | holds m | pop m | popNext m => exact ⟨h.1,(hslot h.1).trans h.2⟩
  | popWrite m newTail => exact ⟨h.1,(hslot h.1).trans h.2.1,h.2.2⟩
  | _ => exact h

theorem ReaderOk.advance (h : ReaderOk r rd) (hfull : ¬r.Full) : ReaderOk r.advance rd := by
  have hne : ¬r.advance.Empty := hfull
  cases rd with
  | gotHead head => exact fun _ => hne
  | addr => exact hne
  | load tail | holds m | pop m | popNext m | popWrite m newTail => exact ⟨hne,h.2⟩
  | _ => exact h

end Ends

/-! ### Runs -/

variable {s s' : Sys P}

/-- The pointers in the slots are distinct, the unread ones are those that were pushed and not
popped, and both ends know what they rely on. -/
structure Inv (s : Sys P) : Prop where
  distinct : ∀ i j m, s.ring.slot i = some m → s.ring.slot j = some m → i = j
  unread : ∃ us, s.pushed = s.popped++us ∧ s.ring.toList = us.map some
  writer : WriterOk s.ring s.writer
  reader : ReaderOk s.ring s.reader

theorem inv_init : Inv (Sys.init : Sys P) where
  distinct _ _ _ h := nomatch h
  unread := ⟨[],rfl,toList_of_empty rfl⟩
  writer := trivial
  reader := trivial

theorem Inv.setWriter {w : Writer P} (h : Inv s) (hw : WriterOk s.ring w) :
    Inv { s with writer := w } := ⟨h.distinct,h.unread,hw,h.reader⟩

theorem Inv.setReader {rd : Reader P} (h : Inv s) (hrd : ReaderOk s.ring rd) :
    Inv { s with reader := rd } := ⟨h.distinct,h.unread,h.writer,hrd⟩

theorem Inv.store {m : P} (h : Inv s) (hm : Owned s.ring m) (hfull : ¬s.ring.Full) :
    Inv { s with ring := s.ring.setNext (some m),writer := .publish m (next s.ring.head) } where
  distinct i j m' hi hj := by
    simp only [SlotRing.setNext,Function.update_apply] at hi hj
    split at hi <;> split at hj
    · next hi' hj' => rw [hi',hj']
    · next hi' hj' => exact absurd (hm j (hj.trans hi.symm)) hj'
    · next hi' hj' => exact absurd (hm i (hi.trans hj.symm)) hi'
    · exact h.distinct i j m' hi hj
  unread := by
    obtain ⟨us,hus,hlist⟩ := h.unread
    exact ⟨us,hus,toList_setNext.trans hlist⟩
  writer := by
    refine ⟨fun i hi => ?_,rfl,hfull,Function.update_self ..⟩
    by_contra hne
    exact hne (hm i ((Function.update_of_ne hne ..).symm.trans hi))
  reader := h.reader.setNext

theorem Inv.push {m : P} (h : Inv s) (hfull : ¬s.ring.Full) (hslot : s.ring.slot s.ring.head = some m) :
    Inv { s with ring := s.ring.advance,writer := .idle,pushed := s.pushed++[m] } where
  distinct := h.distinct
  unread := by
    obtain ⟨us,hus,hlist⟩ := h.unread
    refine ⟨us++[m],?_,?_⟩
    · rw [hus,List.append_assoc]
    · rw [toList_advance hfull,hlist,hslot,List.map_append]
      rfl
  writer := trivial
  reader := h.reader.advance hfull

theorem Inv.pop {m : P} (h : Inv s) (hne : ¬s.ring.Empty) (hslot : s.ring.slot s.ring.tail = some m) :
    Inv { s with ring := s.ring.pop,reader := .idle,popped := s.popped++[m] } where
  distinct := h.distinct
  unread := by
    obtain ⟨us,hus,hlist⟩ := h.unread
    rw [toList_eq_cons hne,hslot] at hlist
    obtain ⟨m',us,rfl,hm,hrest⟩ := List.map_eq_cons_iff.mp hlist.symm
    obtain rfl := Option.some.inj hm
    exact ⟨us,by rw [hus,List.append_assoc]; rfl,hrest.symm⟩
  writer := h.writer.pop hne
  reader := trivial

theorem writerStep_inv (h : Inv s) (hs : s.writerStep = some s') : Inv s' := by
  have hok := h.writer
  rw [Sys.writerStep] at hs
  cases hw : s.writer with simp only [hw] at hs hok
  | idle | alloc nb => contradiction
  | check | curHead nb | fill nb m | readHead nb m | addr m newHead =>
    obtain rfl := Option.some.inj hs
    exact h.setWriter (by simp_all [WriterOk])
  | checkBound newHead =>
    obtain rfl := Option.some.inj hs
    refine h.setWriter ?_
    split <;> trivial
  | test nb cur =>
    obtain rfl := Option.some.inj hs
    refine h.setWriter ?_
    split
    · exact hok
    · trivial
  | type nb cur =>
    obtain ⟨-,hs⟩ := Option.ite_none_right_eq_some.mp hs
    obtain rfl := Option.some.inj hs
    exact h.setWriter hok
  | load nb cur =>
    obtain rfl := Option.some.inj hs
    refine h.setWriter ?_
    cases hm : s.ring.slot cur with
    | none => trivial
    | some m => exact fun i hi => (h.distinct i cur m hi hm).trans hok
  | bound nb m newHead =>
    obtain rfl := Option.some.inj hs
    refine h.setWriter ?_
    split
    · next hne => exact ⟨hok.1,hok.2,fun hfull => hne (hok.2.trans hfull)⟩
    · split
      · trivial
      · exact hok.1
  | slot m newHead cur =>
    obtain rfl := Option.some.inj hs
    obtain ⟨hm,rfl,hfull,rfl⟩ := hok
    exact h.store hm hfull
  | publish m newHead =>
    obtain rfl := Option.some.inj hs
    obtain ⟨-,rfl,hfull,hslot⟩ := hok
    exact h.push hfull hslot

theorem readerStep_inv (h : Inv s) (hs : s.readerStep = some s') : Inv s' := by
  have hok := h.reader
  rw [Sys.readerStep] at hs
  cases hrd : s.reader with simp only [hrd] at hs hok
  | idle => contradiction
  | gotHead head =>
    obtain rfl := Option.some.inj hs
    refine h.setReader ?_
    split
    · next hne => exact hok hne
    · trivial
  | gotTail tail =>
    obtain rfl := Option.some.inj hs
    obtain rfl := hok
    refine h.setReader ?_
    split
    · next hne => exact hne
    · trivial
  | addr =>
    obtain rfl := Option.some.inj hs
    exact h.setReader ⟨hok,rfl⟩
  | load tail =>
    obtain ⟨m,hm,rfl⟩ := Option.map_eq_some_iff.mp hs
    obtain ⟨hne,rfl⟩ := hok
    exact h.setReader ⟨hne,hm⟩
  | holds m =>
    obtain rfl := Option.some.inj hs
    exact h.setReader hok
  | pop m =>
    obtain rfl := Option.some.inj hs
    refine h.setReader ?_
    split
    · next hlast => exact ⟨hok.1,hok.2,Fin.ext (by rw [val_next,if_neg (by omega)])⟩
    · exact hok
  | popNext m =>
    obtain ⟨hlt,hs⟩ := Option.dite_none_right_eq_some.mp hs
    obtain rfl := Option.some.inj hs
    exact h.setReader ⟨hok.1,hok.2,Fin.ext (by rw [val_next,if_pos hlt])⟩
  | popWrite m newTail =>
    obtain rfl := Option.some.inj hs
    obtain ⟨hne,hslot,rfl⟩ := hok
    exact h.pop hne hslot

theorem step_inv [DecidableEq P] {e : Event P} (h : Inv s) (hs : step s e = some s') : Inv s' := by
  cases e with
  | writer => exact writerStep_inv h hs
  | reader => exact readerStep_inv h hs
  | write nb =>
    rw [step] at hs
    split at hs
    · obtain rfl := Option.some.inj hs
      refine h.setWriter ?_
      split <;> trivial
    · contradiction
  | alloc m =>
    rw [step,Sys.alloc] at hs
    split at hs
    · cases m with
      | none =>
        obtain rfl := Option.some.inj hs
        exact h.setWriter trivial
      | some m =>
        obtain ⟨hfresh,hs⟩ := Option.ite_none_right_eq_some.mp hs
        obtain rfl := Option.some.inj hs
        exact h.setWriter fun i hi => absurd hi (hfresh i)
    · contradiction
  | abandon =>
    rw [step,Sys.abandon] at hs
    split at hs
    · obtain rfl := Option.some.inj hs
      exact h.setWriter trivial
    · obtain rfl := Option.some.inj hs
      exact h.setWriter trivial
    · contradiction
  | read headFirst =>
    rw [step] at hs
    split at hs
    · obtain rfl := Option.some.inj hs
      refine h.setReader ?_
      split
      · exact id
      · rfl
    · contradiction
  | leave =>
    rw [step] at hs
    split at hs
    · obtain rfl := Option.some.inj hs
      exact h.setReader trivial
    · contradiction

/-- However the accesses of one writer and one reader interleave, the pointers come out in the order
they were put in, one slot always stays free, and the buffer that is filled is not an unread one. -/
theorem ring_fifo [DecidableEq P] {es : List (Event P)} (hs : run es = some s) :
    (∃ us, s.pushed = s.popped++us ∧ s.ring.toList = us.map some) ∧
      s.ring.toList.length ≤ msgRingLength-1 ∧
      ∀ m, s.writer.buffer = some m → some m ∉ s.ring.toList := by
  have h : Inv s := Machine.run_keeps step_inv inv_init hs
  refine ⟨h.unread,?_,fun m hm => (h.writer.owned hm).not_mem_toList⟩
  rw [length_toList]
  exact Nat.le_sub_one_of_lt s.ring.size_lt

/-- The accesses of a write that gets the new buffer `m`, up to the read of `tail`. -/
def fillNew (m : ℕ) : List (Event ℕ) :=
  [.write false,.writer,.writer,.alloc (some m),.writer,.writer]

/-- The reader reads `head` before the second message is there, and takes the first one. -/
def twoMessages : List (Event ℕ) :=
  fillNew 7++[.writer,.writer,.writer,.writer,.read true]++fillNew 8++[.reader,.writer,.reader,.writer,
    .reader,.writer,.writer,.reader,.reader,.reader,.reader]++fillNew 9

theorem ring_fifo_two_messages : ∃ s, run twoMessages = some s ∧ s.pushed = [7,8] ∧ s.popped = [7] ∧
    s.writer.buffer = some 9 ∧ some 9 ∉ s.ring.toList := by
  obtain ⟨s,hs,hpushed,hpopped,hbuffer⟩ : ∃ s ∈ run twoMessages,
      s.pushed = [7,8] ∧ s.popped = [7] ∧ s.writer.buffer = some 9 := by
    decide +kernel
  exact ⟨s,hs,hpushed,hpopped,hbuffer,(ring_fifo hs).2.2 9 hbuffer⟩

end CxltpRing
end Vessel
