import Vessel.Mbuf
import Vessel.TcpEdge

/-! The way of a received frame through the link and network layers. -/
namespace Vessel
namespace NetRx

open Packet

/-- `netcfg.mac` and `eth_mtu`, and the TCP connections as `trans_lookup` finds them, with what
`tcp_rx_conn` is given from outside. -/
structure Config where
  mac : List UInt8
  mtu : ℕ
  lookup : Mbuf → Option (Tcp.Env × Tcp.Conn)

/-- What comes with a frame: its bytes, whether the hardware has verified the checksum, and
whether there is a buffer for an answer. -/
structure Frame where
  m : Mbuf
  csumUnnecessary : Bool
  txBuffer : Bool

def ethHdrLen : ℕ := 14

def ipHdrLen : ℕ := 20

def ethtypeIp : ℕ := 0x0800

def ethtypeArp : ℕ := 0x0806

def ipMf : ℕ := 0x2000

/-- Addition with the carry added in again. -/
def addCarry (w x y : ℕ) : ℕ := (x+y)%2^w+(x+y)/2^w

def load64 (m : Mbuf) (i : ℕ) : ℕ :=
  m.load16 i+2^16*m.load16 (i+2)+2^32*m.load16 (i+4)+2^48*m.load16 (i+6)

/-- `chksum_internet` over the 20 bytes of a header. -/
def chksumInternet (m : Mbuf) (ip : ℕ) : ℕ :=
  let sum := addCarry 64 (load64 m ip) (load64 m (ip+8))
  let sum := addCarry 64 sum (m.load16 (ip+16)+2^16*m.load16 (ip+18))
  let sum := addCarry 32 (sum/2^32) (sum%2^32)
  let sum := addCarry 16 (sum/2^16) (sum%2^16)
  2^16-1-sum

/-- The header at `ip`.  The offset field is tested as it is loaded. -/
def ipHdrSupported (m : Mbuf) (ip : ℕ) : Bool :=
  (m.mem ip).toNat/16 == 4 && (m.mem ip).toNat%16 == ipHdrLen/4 && (m.load16 (ip+6) &&& ipMf) == 0

inductive Outcome where
  | dropped
  | arp (m : Mbuf)
  | icmp (m : Mbuf) (len : ℕ)
  | trans (m : Mbuf) (proto : ℕ)
  | aborted

/-- The `switch` over the protocol. -/
def switchProto (m : Mbuf) (len : ℕ) : ℕ → Outcome
  | 1 => .icmp m len
  | 6 => .trans m 6
  | 17 => .trans m 17
  | _ => .dropped

/-- The data is cut to `len` bytes if it is longer. -/
def trimTo (m : Mbuf) (len : ℕ) : Option Mbuf := if len < m.len then m.trim (m.len-len) else some m

/-- The network layer's part of `net_rx_one`, up to the call of another layer. -/
def netRxIp (f : Frame) (m : Mbuf) : Outcome :=
  let ip := m.data
  match m.pullOrNull ipHdrLen with
  | none => .dropped
  | some m =>
    if ¬f.csumUnnecessary ∧ chksumInternet m ip ≠ 0 then .dropped
    else if ¬ipHdrSupported m ip then .dropped
    else
      let len := (m.ntoh16 (ip+2)+2^16-ipHdrLen)%2^16
      if m.len < len then .dropped
      else match trimTo m len with
        | none => .aborted
        | some m => switchProto m len (m.mem (ip+9)).toNat

def netRxOne (cfg : Config) (f : Frame) : Outcome :=
  match f.m.pullOrNull ethHdrLen with
  | none => .dropped
  | some m =>
    if m.ntoh16 (f.m.data+12) = ethtypeArp then .arp m
    else if m.ntoh16 (f.m.data+12) ≠ ethtypeIp ∨
        (List.range 6).map (fun i => m.mem (f.m.data+i)) ≠ cfg.mac then .dropped
    else netRxIp f m

/-- Does `net_rx_icmp` abort?  An echo of `len` bytes is put into a buffer for one frame. -/
def netRxIcmpAborts (cfg : Config) (f : Frame) (m : Mbuf) (len : ℕ) : Bool :=
  match m.pullOrNull 8 with
  | none => false
  | some _ =>
    if (m.mem m.data).toNat = 8 then
      f.txBuffer && ((Mbuf.init (fun _ => 0) cfg.mtu 128).put len).isNone
    else false

def tcpHdrLen : ℕ := 20

def ntoh32 (m : Mbuf) (i : ℕ) : BitVec 32 := BitVec.ofNat 32 (2^16*m.ntoh16 i+m.ntoh16 (i+2))

/-- The segment as `tcp_rx_conn` parses it; the length of the data is a number of 16 bits. -/
def tcpSegment (m : Mbuf) : Tcp.Packet where
  seq := ntoh32 m (m.data+4)
  ack := ntoh32 m (m.data+8)
  win := BitVec.ofNat 16 (m.ntoh16 (m.data+14))
  off := ⟨(m.mem (m.data+12)).toNat/16,Nat.div_lt_of_lt_mul (m.mem (m.data+12)).toNat_lt⟩
  flags := (m.mem (m.data+13)).toBitVec
  rest := (m.advance tcpHdrLen).bytes.take 65515
  beyond i := m.mem (m.data+m.len+i)
  rest_le := List.length_take_le _ _

/-- Does `net_rx_trans` abort?  Of the handlers that it may call only `tcp_rx_conn` can.  That one
drops a packet whose total length does not cover the headers. -/
def netRxTransAborts (cfg : Config) (totalLen : ℕ) (m : Mbuf) (proto : ℕ) : Bool :=
  match cfg.lookup m with
  | none => false
  | some (env,c) =>
    if proto = 6 ∧ tcpHdrLen ≤ m.len ∧ ipHdrLen ≤ totalLen then
      match Tcp.tcpRxConn env c (tcpSegment m) with
      | .error .endless => false
      | .error _ => true
      | .ok _ => false
    else false

/-- The mbuf that ICMP, UDP or TCP gets. -/
def Outcome.handed : Outcome → Option Mbuf
  | .icmp m _ => some m
  | .trans m _ => some m
  | _ => none

namespace Frame

variable (f : Frame)

/-- Where the network header is. -/
def ip : ℕ := f.m.data+ethHdrLen

def totalLen : ℕ := f.m.ntoh16 (f.ip+2)

/-- The flag for more fragments and the fragment offset, in network byte order. -/
def moreFragments : Bool := f.m.ntoh16 (f.ip+6)/2^13%2 == 1

def fragmentOffset : ℕ := f.m.ntoh16 (f.ip+6)%2^13

def proto : ℕ := (f.m.mem (f.ip+9)).toNat

/-- The data behind the header, cut to the length that the header says, less its own in 16 bits. -/
def payload : Mbuf := ⟨f.m.mem,f.m.headLen,f.ip+ipHdrLen,(f.totalLen+2^16-ipHdrLen)%2^16⟩

/-- The frame is for this host and gets through the tests of `net_rx_one`, one of which looks at a
bit of the fragment offset. -/
structure Passes (cfg : Config) : Prop where
  length : ethHdrLen+ipHdrLen+f.payload.len ≤ f.m.len
  type : f.m.ntoh16 (f.m.data+12) = ethtypeIp
  mac : (List.range 6).map (fun i => f.m.mem (f.m.data+i)) = cfg.mac
  csum : f.csumUnnecessary = true ∨ chksumInternet f.m f.ip = 0
  version : (f.m.mem f.ip).toNat/16 = 4
  noOptions : (f.m.mem f.ip).toNat%16 = 5
  tested : f.m.load16 (f.ip+6) &&& ipMf = 0
  handler : f.proto = 1 ∨ f.proto = 6 ∨ f.proto = 17

def aborts (cfg : Config) : Bool := match netRxOne cfg f with
  | .icmp m len => netRxIcmpAborts cfg f m len
  | .trans m proto => netRxTransAborts cfg f.totalLen m proto
  | .aborted => true
  | _ => false

/-- The process is not aborted, and only whole datagrams are handed on. -/
structure Sound (cfg : Config) : Prop where
  alive : f.aborts cfg = false
  whole : ∀ p,(netRxOne cfg f).handed = some p → (f.moreFragments = false ∧ f.fragmentOffset = 0) ∧
    p.len+ipHdrLen = f.totalLen

end Frame

section Receive

variable {cfg : Config} {f : Frame} {p : Mbuf}

end Receive

/-! ### The checksum of a header -/

section Checksum

variable {w x y k : ℕ}

/-- A carry that is added in again is worth a multiple of 65535. -/
theorem addCarry_spec (hw : 2^w = 65535*k+1) (hk : 0 < k) (hx : x < 2^w) (hy : y < 2^w) :
    addCarry w x y < 2^w ∧ addCarry w x y%65535 = (x+y)%65535 ∧
      (addCarry w x y = 0 ↔ x+y = 0) := by
  rw [addCarry]
  by_cases hlt : x+y < 2^w
  · rw [Nat.mod_eq_of_lt hlt,Nat.div_eq_of_lt hlt]
    exact ⟨hlt,rfl,Iff.rfl⟩
  · have hsub : (x+y)%2^w = x+y-2^w := by
      rw [Nat.mod_eq_sub_mod (by omega),Nat.mod_eq_of_lt (by omega)]
    have hdiv : (x+y)/2^w = 1 := by
      rw [Nat.div_eq_sub_div (by omega) (by omega),Nat.div_eq_of_lt (by omega)]
    rw [hsub,hdiv]
    omega

theorem load16_lt (m : Mbuf) (i : ℕ) : m.load16 i < 2^16 := by
  have h0 := (m.mem i).toNat_lt
  have h1 := (m.mem (i+1)).toNat_lt
  simp only [Mbuf.load16]
  omega

theorem load64_spec (m : Mbuf) (i : ℕ) :
    let words := m.load16 i+m.load16 (i+2)+m.load16 (i+4)+m.load16 (i+6)
    load64 m i < 2^64 ∧ load64 m i%65535 = words%65535 ∧ (load64 m i = 0 ↔ words = 0) := by
  have h0 := load16_lt m i
  have h2 := load16_lt m (i+2)
  have h4 := load16_lt m (i+4)
  have h6 := load16_lt m (i+6)
  simp only [load64]
  omega

theorem fold_eq_zero_iff {sum : ℕ} (h : sum < 2^64) :
    let sum₃ := addCarry 32 (sum/2^32) (sum%2^32)
    2^16-1-addCarry 16 (sum₃/2^16) (sum₃%2^16) = 0 ↔ sum ≠ 0 ∧ sum%65535 = 0 := by
  intro sum₃
  obtain ⟨hlt₃,hmod₃,hzero₃⟩ := addCarry_spec (w:=32) (x:=sum/2^32) (y:=sum%2^32) (k:=65537) rfl
    (by omega) (by omega) (by omega)
  obtain ⟨hlt₄,hmod₄,hzero₄⟩ := addCarry_spec (w:=16) (x:=sum₃/2^16) (y:=sum₃%2^16) (k:=1) rfl
    (by omega) (by omega) (by omega)
  have hsum₃ : (sum₃/2^16+sum₃%2^16)%65535 = sum₃%65535 := by omega
  have hsum : (sum/2^32+sum%2^32)%65535 = sum%65535 := by omega
  have hmod : addCarry 16 (sum₃/2^16) (sum₃%2^16)%65535 = sum%65535 := by
    rw [hmod₄,hsum₃,hmod₃,hsum]
  have hzero : addCarry 16 (sum₃/2^16) (sum₃%2^16) = 0 ↔ sum = 0 := by omega
  rw [← hmod,Ne,← hzero]
  generalize addCarry 16 _ _ = sum₄ at *
  clear hzero hzero₃ hzero₄ hmod₃ hmod₄ hsum₃ hsum hmod
  omega

/-- Adding up words of 64 bits is as good as adding up those of 16: the test of a header succeeds
just if the sum of its ten words is a positive multiple of 65535. -/
theorem chksumInternet_eq_zero_iff (m : Mbuf) (ip : ℕ) :
    chksumInternet m ip = 0 ↔
      let sum := ((List.range 10).map fun i => m.load16 (ip+2*i)).sum
      sum ≠ 0 ∧ sum%65535 = 0 := by
  have hsum : ((List.range 10).map fun i => m.load16 (ip+2*i)).sum = m.load16 ip+
      m.load16 (ip+2)+m.load16 (ip+4)+m.load16 (ip+6)+(m.load16 (ip+8)+m.load16 (ip+8+2)+
      m.load16 (ip+8+4)+m.load16 (ip+8+6))+(m.load16 (ip+16)+m.load16 (ip+18)) := by
    simp [List.range_succ,Nat.add_assoc]
  have hlast : Nat.ModEq 65535 (m.load16 (ip+16)+2^16*m.load16 (ip+18))
      (m.load16 (ip+16)+m.load16 (ip+18)) := by
    rw [Nat.ModEq]
    omega
  obtain ⟨hlt,hmod,hzero⟩ := load64_spec m ip
  obtain ⟨hlt',hmod',hzero'⟩ := load64_spec m (ip+8)
  have h16 := load16_lt m (ip+16)
  have h18 := load16_lt m (ip+18)
  obtain ⟨hlt₁,hmod₁,hzero₁⟩ := addCarry_spec (k:=281479271743489) rfl (by omega) hlt hlt'
  obtain ⟨hlt₂,hmod₂,hzero₂⟩ := addCarry_spec (y:=m.load16 (ip+16)+2^16*m.load16 (ip+18))
    (k:=281479271743489) rfl (by omega) hlt₁ (by omega)
  refine (fold_eq_zero_iff hlt₂).trans ?_
  simp only [hsum,hmod₂,ne_eq,hzero₂]
  refine and_congr (not_congr ?_) ?_
  · clear hmod hmod' hmod₁ hmod₂ hlast
    omega
  · have hwords := (Nat.ModEq.trans hmod₁ (Nat.ModEq.add hmod hmod')).add hlast
    exact iff_of_eq (congrArg (· = 0) hwords)

end Checksum

end NetRx
end Vessel
