import Vessel.Counter
import Vessel.Interleave

/-! Shared memory channels (`base/lrpc.h`, `base/lrpc.c`): one sender and one receiver
on a table of messages.  A slot is marked full by a parity bit in the command word that
changes with every lap; the receiver writes its position back to one shared word. -/
namespace Vessel.Lrpc

open Prog

structure Msg where
  cmd : BitVec 64
  payload : BitVec 64
  deriving DecidableEq

/-- `LRPC_DONE_PARITY`. -/
def doneParity : BitVec 64 := 1#64 <<< 63

/-- `LRPC_CMD_MASK`. -/
def cmdMask : BitVec 64 := ~~~doneParity

/-- `struct lrpc_chan_out`, private to the sender. -/
structure ChanOut where
  sendHead : BitVec 32
  sendTail : BitVec 32
  size : BitVec 32

/-- `struct lrpc_chan_in`, private to the receiver. -/
structure ChanIn where
  recvHead : BitVec 32
  size : BitVec 32

/-- The table and the write-back word `*recv_head_wb`. -/
structure Shared where
  tbl : ℕ → Msg
  recvHeadWb : BitVec 32

def Shared.setPayload (m : Shared) (i : ℕ) (p : BitVec 64) : Shared :=
  { m with tbl := Function.update m.tbl i { m.tbl i with payload := p } }

def Shared.setCmd (m : Shared) (i : ℕ) (c : BitVec 64) : Shared :=
  { m with tbl := Function.update m.tbl i { m.tbl i with cmd := c } }

@[simp] theorem setPayload_cmd (m : Shared) (i j : ℕ) (p : BitVec 64) :
    ((m.setPayload i p).tbl j).cmd = (m.tbl j).cmd := by
  by_cases h : j = i
  · subst h
    simp [Shared.setPayload]
  · simp [Shared.setPayload,h]
@[simp] theorem setPayload_payload (m : Shared) (i : ℕ) (p : BitVec 64) :
    ((m.setPayload i p).tbl i).payload = p := by simp [Shared.setPayload]
theorem setPayload_of_ne (m : Shared) {i j : ℕ} (h : j ≠ i) (p : BitVec 64) :
    (m.setPayload i p).tbl j = m.tbl j := by simp [Shared.setPayload,h]

@[simp] theorem setCmd_payload (m : Shared) (i j : ℕ) (c : BitVec 64) :
    ((m.setCmd i c).tbl j).payload = (m.tbl j).payload := by
  by_cases h : j = i
  · subst h
    simp [Shared.setCmd]
  · simp [Shared.setCmd,h]
@[simp] theorem setCmd_cmd (m : Shared) (i : ℕ) (c : BitVec 64) :
    ((m.setCmd i c).tbl i).cmd = c := by simp [Shared.setCmd]
theorem setCmd_of_ne (m : Shared) {i j : ℕ} (h : j ≠ i) (c : BitVec 64) :
    (m.setCmd i c).tbl j = m.tbl j := by simp [Shared.setCmd,h]

/-- Accesses to shared memory, each one atomic step. -/
inductive Op
  | storePayload (i : ℕ) (payload : BitVec 64)
  | storeCmd (i : ℕ) (cmd : BitVec 64)
  | loadCmd (i : ℕ)
  | loadPayload (i : ℕ)
  | loadWb
  | storeWb (head : BitVec 32)

@[reducible] def Res : Op → Type
  | .loadCmd _ => BitVec 64
  | .loadPayload _ => BitVec 64
  | .loadWb => BitVec 32
  | _ => Unit

def sem : (op : Op) → Shared → Res op → Shared → Prop
  | .storePayload i p, m, _, m' => m' = m.setPayload i p
  | .storeCmd i c, m, _, m' => m' = m.setCmd i c
  | .loadCmd i, m, r, m' => r = (m.tbl i).cmd ∧ m' = m
  | .loadPayload i, m, r, m' => r = (m.tbl i).payload ∧ m' = m
  | .loadWb, m, r, m' => r = m.recvHeadWb ∧ m' = m
  | .storeWb v, m, _, m' => m' = { m with recvHeadWb := v }

/-- The answer and the memory after an access; nothing is left open. -/
def exec : (op : Op) → Shared → Res op × Shared
  | .storePayload i p, m => ((),m.setPayload i p)
  | .storeCmd i c, m => ((),m.setCmd i c)
  | .loadCmd i, m => ((m.tbl i).cmd,m)
  | .loadPayload i, m => ((m.tbl i).payload,m)
  | .loadWb, m => (m.recvHeadWb,m)
  | .storeWb v, m => ((),{ m with recvHeadWb := v })

theorem exec_sem (op : Op) (m : Shared) : sem op m (exec op m).1 (exec op m).2 := by
  cases op <;> simp [sem,exec]

/-- `head & (size - 1)`, an index of the table. -/
def slot (head size : BitVec 32) : ℕ := (head &&& (size - 1)).toNat

/-- `(head & size) ? 0 : LRPC_DONE_PARITY`. -/
def parity (head size : BitVec 32) : BitVec 64 := if head &&& size ≠ 0 then 0 else doneParity

/-- `__lrpc_send`: look at the receiver's position again before giving up. -/
def lrpcSendInternal (cmd payload : BitVec 64) : Prog ChanOut Op Res Bool := do
  let tail ← perform .loadWb
  update fun ch => { ch with sendTail := tail }
  let ch ← read
  if ch.sendHead - ch.sendTail = ch.size then
    return false
  tell (.storePayload (slot ch.sendHead ch.size) payload)
  update fun ch => { ch with sendHead := ch.sendHead + 1 }
  tell (.storeCmd (slot ch.sendHead ch.size) (cmd ||| parity ch.sendHead ch.size))
  return true

def lrpcSend (cmd payload : BitVec 64) : Prog ChanOut Op Res Bool := do
  let ch ← read
  if ch.sendHead - ch.sendTail ≥ ch.size then
    lrpcSendInternal cmd payload
  else do
    update fun ch => { ch with sendHead := ch.sendHead + 1 }
    tell (.storePayload (slot ch.sendHead ch.size) payload)
    tell (.storeCmd (slot ch.sendHead ch.size) (cmd ||| parity ch.sendHead ch.size))
    return true

def lrpcPollSendTail : Prog ChanOut Op Res (BitVec 32) := do
  let tail ← perform .loadWb
  update fun ch => { ch with sendTail := tail }
  return tail

def lrpcRecv : Prog ChanIn Op Res (Option Msg) := do
  let ch ← read
  let cmd ← perform (.loadCmd (slot ch.recvHead ch.size))
  if cmd &&& doneParity ≠ parity ch.recvHead ch.size then
    return none
  update fun ch => { ch with recvHead := ch.recvHead + 1 }
  let payload ← perform (.loadPayload (slot ch.recvHead ch.size))
  tell (.storeWb (ch.recvHead + 1))
  return some ⟨cmd &&& cmdMask,payload⟩

def lrpcEmpty : Prog ChanIn Op Res Bool := do
  let ch ← read
  let cmd ← perform (.loadCmd (slot ch.recvHead ch.size))
  return decide (cmd &&& doneParity ≠ parity ch.recvHead ch.size)

def isPowerOfTwo (x : BitVec 32) : Bool := x ≠ 0 ∧ x &&& (x - 1) = 0

def lrpcInitOut (size : BitVec 32) : Option ChanOut :=
  if isPowerOfTwo size then some ⟨0,0,size⟩ else none

def lrpcInitIn (size : BitVec 32) : Option ChanIn :=
  if isPowerOfTwo size then some ⟨0,size⟩ else none

inductive Side
  | sender | receiver
  deriving DecidableEq

@[reducible] def Chan : Side → Type
  | .sender => ChanOut
  | .receiver => ChanIn

inductive SendCall
  | send (cmd payload : BitVec 64)
  | pollSendTail

inductive SendRet
  | sent (ok : Bool)
  | tail (t : BitVec 32)

inductive RecvCall
  | recv | empty

inductive RecvRet
  | msg (m : Option Msg)
  | empty (b : Bool)

@[reducible] def Call : Side → Type
  | .sender => SendCall
  | .receiver => RecvCall

@[reducible] def Ret : Side → Type
  | .sender => SendRet
  | .receiver => RecvRet

def sendBody : SendCall → Prog ChanOut Op Res SendRet
  | .send cmd payload => .sent <$> lrpcSend cmd payload
  | .pollSendTail => .tail <$> lrpcPollSendTail

def recvBody : RecvCall → Prog ChanIn Op Res RecvRet
  | .recv => .msg <$> lrpcRecv
  | .empty => .empty <$> lrpcEmpty

/-- One sender and one receiver, calling whatever they like in any order. -/
def channel : Threads Side Op Shared Res Chan Call Ret where
  sem := sem
  body
    | .sender => sendBody
    | .receiver => recvBody
  allowed _ _ _ := True

instance (i : Side) (s : Chan i) (c : Call i) : Decidable (channel.allowed i s c) :=
  inferInstanceAs (Decidable True)

abbrev ChannelConfig := Config Side Op Shared Res Chan Call Ret
abbrev Trace := List (Event Side Op Res Call Ret)

/-- Both ends freshly initialised on a zeroed table. -/
def initial (out : ChanOut) (inp : ChanIn) : ChannelConfig where
  mem := ⟨fun _ => ⟨0,0⟩,0⟩
  thr
    | .sender => ⟨out,none⟩
    | .receiver => ⟨inp,none⟩
  trace := []

/-! ### What a history says -/

/-- The arguments of the last `lrpc_send` that was called. -/
def lastSend : Trace → Msg
  | .start .sender (.send cmd payload)::_ => ⟨cmd,payload⟩
  | _::t => lastSend t
  | [] => ⟨0,0⟩

/-- Sends whose command word has been stored, in order. -/
def accepted : Trace → List Msg
  | .act .sender (.storeCmd _ _) _::t => accepted t ++ [lastSend t]
  | _::t => accepted t
  | [] => []

/-- Sends that have returned true, in order. -/
def returned : Trace → List Msg
  | .done .sender (.send cmd payload) (.sent true)::t => returned t ++ [⟨cmd,payload⟩]
  | _::t => returned t
  | [] => []

/-- Messages handed to the caller of `lrpc_recv`, in order. -/
def received : Trace → List Msg
  | .done .receiver _ (.msg (some m))::t => received t ++ [m]
  | _::t => received t
  | [] => []

/-- How many messages the receiver has published as consumed. -/
def consumed : Trace → ℕ
  | .act .receiver (.storeWb _) _::t => consumed t + 1
  | _::t => consumed t
  | [] => 0

/-- How many of them the sender has seen. -/
def seenConsumed : Trace → ℕ
  | .act .sender .loadWb _::t => consumed t
  | _::t => seenConsumed t
  | [] => 0

/-- Was there a message to consume when the receiver last looked for one? -/
def available : Trace → Bool
  | .act .receiver (.loadCmd _) _::t => decide (consumed t < (accepted t).length)
  | _::t => available t
  | [] => false

end Vessel.Lrpc
