import Vessel.Serial
import Vessel.TcpOptions

/-! The receive path of TCP (`tcp_in.c`, `tcp.c`, `mbuf.h`).
A connection is changed in sections that hold its lock; each such section is one function
here.  What a section defers until the lock is free (packets to send, threads to wake,
buffers to free) is returned as a list. -/
namespace Vessel.Tcp

open Serial

/-- Why a section does not return. -/
inductive Abort
  | bugOn
  | assertion
  | endless
  deriving DecidableEq

/-- `assert`. -/
def assertThat (b : Bool) : Except Abort Unit := if b then .ok () else .error .assertion

/-! ### Buffers -/

/-- The bits of `flags` in a TCP header. -/
abbrev Flags := BitVec 8

def tcpFin : Flags := 0x01
def tcpSyn : Flags := 0x02
def tcpRst : Flags := 0x04
def tcpPush : Flags := 0x08
def tcpAck : Flags := 0x10
def tcpUrg : Flags := 0x20

/-- `(flags & mask) != 0`. -/
def has (flags mask : Flags) : Bool := flags &&& mask ≠ 0

/-- A wider mask has what a narrower one has. -/
theorem has_mono {flags a b : Flags} (hab : a &&& b = a) (h : has flags a = true) :
    has flags b = true := by
  rw [has,decide_eq_true_eq] at h ⊢
  intro hb
  refine h ?_
  calc flags &&& a = flags &&& (b &&& a) := by rw [BitVec.and_comm b,hab]
    _ = flags &&& b &&& a := (BitVec.and_assoc ..).symm
    _ = 0 &&& a := by rw [hb]
    _ = 0 := BitVec.zero_and

theorem has_false_mono {flags a b : Flags} (hab : a &&& b = a) (h : has flags b = false) :
    has flags a = false := by
  cases ha : has flags a with
  | false => rfl
  | true => rw [has_mono hab ha] at h; exact h

/-- `struct mbuf`: the bytes from `data` on and the fields for TCP. -/
structure Mbuf where
  data : List UInt8
  segSeq : BitVec 32
  segEnd : BitVec 32
  flags : Flags
  deriving DecidableEq

def mbufPull (m : Mbuf) (len : ℕ) : Except Abort Mbuf :=
  if m.data.length < len then .error .bugOn else .ok { m with data := m.data.drop len }

def mbufTrim (m : Mbuf) (len : ℕ) : Except Abort Mbuf :=
  if m.data.length < len then .error .bugOn
  else .ok { m with data := m.data.take (m.data.length - len) }

/-! ### Text -/

/-- What the receive path keeps: `rcv_nxt` and `rcv_wnd` of the PCB, and both queues. -/
structure Ingress where
  rcvNxt : BitVec 32
  rcvWnd : BitVec 32
  rxq : List Mbuf
  rxqOoo : List Mbuf
  rxqOooLen : ℕ
  deriving DecidableEq

def tcpOooMaxSize : ℕ := 2048

def isAcceptable (r : Ingress) (len seq : BitVec 32) : Bool :=
  if len = 0 ∧ r.rcvWnd = 0 then seq = r.rcvNxt
  else if len = 0 ∧ r.rcvWnd > 0 then
    wrapsLte r.rcvNxt seq && wrapsLt seq (r.rcvNxt + r.rcvWnd)
  else if len > 0 ∧ r.rcvWnd = 0 then false
  else
    (wrapsLte r.rcvNxt seq && wrapsLt seq (r.rcvNxt + r.rcvWnd)) ||
      (wrapsLte r.rcvNxt (seq + len - 1) && wrapsLt (seq + len - 1) (r.rcvNxt + r.rcvWnd))

/-- The next octet clips the head of the text. -/
def clipHead (r : Ingress) (m : Mbuf) : Except Abort Mbuf :=
  if wrapsLt m.segSeq r.rcvNxt then do
    let len := r.rcvNxt - m.segSeq
    let m ← mbufPull m len.toNat
    pure { m with segSeq := m.segSeq + len }
  else pure m

/-- The window clips the tail of the text. -/
def clipTail (r : Ingress) (m : Mbuf) : Except Abort Mbuf :=
  if wrapsLt (r.rcvNxt + r.rcvWnd) m.segEnd then do
    let len := m.segEnd - (r.rcvNxt + r.rcvWnd)
    let m ← mbufTrim m len.toNat
    pure { m with segEnd := r.rcvNxt + r.rcvWnd }
  else pure m

def tcpRxAppendText (r : Ingress) (m : Mbuf) : Except Abort Ingress := do
  assertThat (wrapsLte m.segSeq r.rcvNxt)
  assertThat (wrapsGt m.segEnd r.rcvNxt)
  let m ← clipHead r m
  let m ← clipTail r m
  assertThat (m.segEnd - m.segSeq ≤ r.rcvWnd)
  pure { r with
    rcvNxt := m.segEnd
    rcvWnd := r.rcvWnd - (m.segEnd - m.segSeq)
    rxq := r.rxq ++ [m] }

/-- The ingress state with `*wake` and `*fin`. -/
structure Text where
  rx : Ingress
  wake : Bool
  fin : Bool

/-- The place for an out-of-order segment, looked for from the end of the queue; none where
the segment is not taken. -/
def oooInsertRev (m : Mbuf) : List Mbuf → Option (List Mbuf)
  | [] => some [m]
  | pos::rest =>
    if wrapsGt m.segEnd pos.segEnd then some (m::pos::rest)
    else if wrapsGte m.segSeq pos.segSeq then none
    else (oooInsertRev m rest).map (pos::·)

def oooInsert (m : Mbuf) (q : List Mbuf) : Option (List Mbuf) :=
  (oooInsertRev m q.reverse).map List.reverse

/-- The loop that drains the out-of-order queue, whose buffers are given apart. -/
def drain : List Mbuf → Text → Except Abort Text
  | [], t => .ok { t with rx := { t.rx with rxqOoo := [] } }
  | pos::rest, t =>
    if wrapsLte pos.segEnd t.rx.rcvNxt then
      drain rest { t with rx := { t.rx with rxqOooLen := t.rx.rxqOooLen-1 } }
    else if wrapsGt pos.segSeq t.rx.rcvNxt then
      .ok { t with rx := { t.rx with rxqOoo := pos::rest } }
    else do
      let rx ← tcpRxAppendText { t.rx with rxqOooLen := t.rx.rxqOooLen-1 } pos
      drain rest ⟨rx,true,t.fin || has pos.flags tcpFin⟩

/-- The drain and the last test of `tcp_rx_text`. -/
def drainQueue (t : Text) : Except Abort Text := do
  let t ← drain t.rx.rxqOoo t
  pure { t with wake := t.wake || t.rx.rcvWnd = 0 }

/-- None where the segment is not used. -/
def tcpRxText (r : Ingress) (m : Mbuf) : Except Abort (Option Text) :=
  if r.rcvWnd = 0 then pure none
  else if wrapsLte m.segSeq r.rcvNxt then do
    let wake := has m.flags (tcpPush ||| tcpFin) || !r.rxq.isEmpty
    let fin := wake && has m.flags tcpFin
    let rx ← tcpRxAppendText r m
    some <$> drainQueue ⟨rx,wake,fin⟩
  else if r.rxqOooLen ≥ tcpOooMaxSize then pure none
  else
    match oooInsert m r.rxqOoo with
    | none => pure none
    | some q => some <$> drainQueue ⟨{ r with rxqOoo := q, rxqOooLen := r.rxqOooLen+1 },false,false⟩

end Vessel.Tcp
