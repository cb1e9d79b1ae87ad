import Vessel.Lrpc

/-! The channel behaves as a bounded FIFO.
The sender's logical state counts the messages accepted and the messages it has seen
consumed; the receiver's counts the messages consumed.  The table invariant says which
message the words of a slot belong to, and that a consumed message carries the parity
of its lap, which is what lets the receiver tell an old word from a new one. -/
namespace Vessel.Lrpc

open Prog Counter Option

/-- What `lrpc_recv` delivers of a message. -/
def masked (m : Msg) : Msg := ⟨m.cmd &&& cmdMask,m.payload⟩

/-- The parity that marks entry `n` of a table of `2^k` slots. -/
def lapParity (k n : ℕ) : BitVec 64 := if oddLap k n then 0 else doneParity

theorem parity_word {k : ℕ} (hk : k < 32) (n : ℕ) :
    parity (word n) (word (2^k)) = lapParity k n := by
  simp only [parity,lapParity,ne_eq,and_size_eq_zero hk]
  cases oddLap k n <;> rfl

theorem slot_word {k : ℕ} (hk : k < 32) (n : ℕ) : slot (word n) (word (2^k)) = n % 2^k :=
  and_mask_toNat hk n

theorem lapParity_add_ne (k n : ℕ) : lapParity k (n+2^k) ≠ lapParity k n := by
  unfold lapParity
  rw [oddLap_add]
  cases oddLap k n <;> decide

theorem lapParity_of_lt {k n : ℕ} (h : n < 2^k) : lapParity k n = doneParity := by
  simp [lapParity,oddLap_of_lt h]

theorem mask_or_lapParity (k n : ℕ) (c : BitVec 64) :
    (c ||| lapParity k n) &&& cmdMask = c &&& cmdMask := by
  unfold lapParity
  split
  · simp
  · rw [BitVec.and_comm,BitVec.and_or_distrib_left,BitVec.and_comm cmdMask c]
    simp [cmdMask,doneParity]

theorem masked_of_clear {m : Msg} (h : m.cmd &&& doneParity = 0) : masked m = m := by
  have hc : m.cmd &&& cmdMask = m.cmd := by
    calc m.cmd &&& cmdMask = (m.cmd &&& cmdMask) ||| (m.cmd &&& doneParity) := by rw [h]; simp
      _ = m.cmd &&& (cmdMask ||| doneParity) := by rw [BitVec.and_or_distrib_left]
      _ = m.cmd := by
        rw [show cmdMask ||| doneParity = BitVec.allOnes 64 by decide,BitVec.and_allOnes]
  cases m
  simpa [masked] using hc

/-- The parity marks a word whose own bit is clear. -/
theorem or_lapParity_of_clear {c : BitVec 64} (k n : ℕ) (h : c &&& doneParity = 0) :
    (c ||| lapParity k n) &&& doneParity = lapParity k n := by
  rw [BitVec.and_comm,BitVec.and_or_distrib_left,BitVec.and_comm doneParity c,h]
  unfold lapParity
  split <;> decide

/-- No message uses the bit of the parity. -/
def Clear (t : Trace) : Prop := ∀ m ∈ accepted t, m.cmd &&& doneParity = 0

/-! ### Logical states -/

/-- `head` messages accepted, the sends of `ret` of them returned, `tail` seen consumed; `staged`
once the payload of the current send stands in its slot. -/
structure SendView where
  head : ℕ
  ret : ℕ
  tail : ℕ
  staged : Bool
  cur : Msg

/-- `head` messages published as consumed and `ret` of them returned; `got` is the
command word found full at `head`, `paid` its payload, `out` a message on its way back.
`seen` says whether the word was full at the last look. -/
structure RecvView where
  head : ℕ
  ret : ℕ
  got : Option (BitVec 64)
  paid : Option (BitVec 64)
  out : Option Msg
  seen : Bool

@[reducible] def View : Side → Type
  | .sender => SendView
  | .receiver => RecvView

/-- The sender stores only into the slot of the next message, and only with room for it. -/
def sendRules (k : ℕ) : Rules SendView Op Res where
  may v
    | .storePayload i p => i = v.head % 2^k ∧ v.head < v.tail + 2^k ∧ p = v.cur.payload
    | .storeCmd i c => i = v.head % 2^k ∧ v.head < v.tail + 2^k ∧ v.staged = true ∧
        v.ret = v.head ∧ c = v.cur.cmd ||| lapParity k v.head
    | .loadWb => True
    | _ => False
  next v
    | .storePayload _ _, _, v' => v' = { v with staged := true }
    | .storeCmd _ _, _, v' => v' = { v with head := v.head + 1, staged := false }
    | .loadWb, r, v' => ∃ n, v.tail ≤ n ∧ n ≤ v.head ∧ r = word n ∧ v' = { v with tail := n }
    | _, _, v' => v' = v

/-- The receiver reads the slot at `head` and publishes only a message it found full. -/
def recvRules (k : ℕ) : Rules RecvView Op Res where
  may v
    | .loadCmd i => i = v.head % 2^k
    | .loadPayload i => i = v.head % 2^k ∧ v.got.isSome
    | .storeWb w => w = word (v.head+1) ∧ v.out = none ∧ v.got.isSome ∧ v.paid.isSome
    | _ => False
  next v
    | .loadCmd _, c, v' =>
      v' = { v with
        got := if c &&& doneParity = lapParity k v.head then some c else none
        seen := decide (c &&& doneParity = lapParity k v.head) }
    | .loadPayload _, p, v' => v' = { v with paid := some p }
    | .storeWb _, _, v' => ∃ c p, v.got = some c ∧ v.paid = some p ∧
        v' = ⟨v.head+1,v.ret,none,none,some ⟨c &&& cmdMask,p⟩,v.seen⟩
    | _, _, v' => v' = v

def rules (k : ℕ) : (i : Side) → Rules (View i) Op Res
  | .sender => sendRules k
  | .receiver => recvRules k

/-- What the newest event says of the history before it: a refused send met a full
table, a store of the sender met no slot that is still unread, and where the receiver is told
that there is nothing, nothing was there when it looked. -/
def EventOk (k : ℕ) (t : Trace) : Event Side Op Res Call Ret → Prop
  | .done .sender (.send _ _) (.sent false) => (accepted t).length = seenConsumed t + 2^k
  | .act .sender (.storePayload i _) _ =>
    ∀ n, consumed t ≤ n → n < (accepted t).length → n % 2^k ≠ i
  | .act .sender (.storeCmd i _) _ =>
    ∀ n, consumed t ≤ n → n < (accepted t).length → n % 2^k ≠ i
  | .done .sender _ (.tail w) => w = word (seenConsumed t)
  | .done .receiver _ (.empty b) => Clear t → b = !available t
  | .done .receiver _ (.msg none) => Clear t → available t = false
  | _ => True

theorem eventOk_cons {k : ℕ} {t : Trace} {e : Event Side Op Res Call Ret} (h : EventOk k t e) :
    ∀ e' t', e::t = e'::t' → EventOk k t' e' := by
  rintro _ _ ⟨⟩
  exact h

/-- Shared memory and history against the two logical states. -/
structure Inv (k : ℕ) (m : Shared) (t : Trace) (s : SendView) (r : RecvView) : Prop where
  accepted_len : (accepted t).length = s.head
  consumed_eq : consumed t = r.head
  seen_eq : seenConsumed t = s.tail
  returned_eq : returned t = (accepted t).take s.ret
  returned_le : s.ret ≤ s.head ∧ s.head ≤ s.ret + 1
  unreturned : s.ret < s.head → (accepted t)[s.ret]? = some s.cur
  looked : Clear t → r.seen = available t
  cur_eq : lastSend t = s.cur
  wb_eq : m.recvHeadWb = word r.head
  tail_le : s.tail ≤ r.head
  head_le : r.head ≤ s.head
  room : s.head ≤ s.tail + 2^k
  -- the command word of a slot belongs to the last message stored there
  cmd_eq : ∀ n a, (accepted t)[n]? = some a → s.head ≤ n + 2^k →
    (m.tbl (n % 2^k)).cmd = a.cmd ||| lapParity k n
  fresh : ∀ n, s.head ≤ n → n < 2^k → (m.tbl n).cmd = 0
  payload_eq : ∀ n a, (accepted t)[n]? = some a → r.head ≤ n →
    (m.tbl (n % 2^k)).payload = a.payload
  staged_eq : s.staged = true → (m.tbl (s.head % 2^k)).payload = s.cur.payload
  full : ∀ n a, (accepted t)[n]? = some a → n < r.head →
    (a.cmd ||| lapParity k n) &&& doneParity = lapParity k n
  got_eq : ∀ c, r.got = some c → ∃ a, (accepted t)[r.head]? = some a ∧
    c = a.cmd ||| lapParity k r.head ∧ c &&& doneParity = lapParity k r.head
  paid_eq : ∀ p, r.paid = some p → ∃ a, (accepted t)[r.head]? = some a ∧ p = a.payload
  received_eq : received t = ((accepted t).map masked).take r.ret
  ret_le : r.ret ≤ r.head
  out_none : r.out = none → r.ret = r.head
  out_some : ∀ x, r.out = some x → r.ret + 1 = r.head ∧ ((accepted t).map masked)[r.ret]? = some x
  last : ∀ e t', t = e::t' → EventOk k t' e

/-! ### One step -/

section Steps

variable {k : ℕ} {m : Shared} {t : Trace} {s : SendView} {r : RecvView}

theorem lt_head_of_accepted (h : Inv k m t s r) {n : ℕ} {a : Msg}
    (ha : (accepted t)[n]? = some a) : n < s.head := by
  rw [← h.accepted_len]
  exact (List.getElem?_eq_some_iff.mp ha).1

/-- With room for one more message, its slot is not one of those still unread. -/
theorem unread_slot_ne (h : Inv k m t s r) (hroom : s.head < s.tail + 2^k) (n : ℕ)
    (hc : consumed t ≤ n) (hn : n < (accepted t).length) : n % 2^k ≠ s.head % 2^k := by
  have htl := h.tail_le
  rw [h.consumed_eq] at hc
  rw [h.accepted_len] at hn
  exact slot_ne hn (by omega)

theorem inv_storePayload (h : Inv k m t s r) (hroom : s.head < s.tail + 2^k) (u : Unit) :
    Inv k (m.setPayload (s.head % 2^k) s.cur.payload)
      (.act .sender (.storePayload (s.head % 2^k) s.cur.payload) u::t)
      { s with staged := true } r where
  __ := h
  cmd_eq n a ha hn := by
    rw [setPayload_cmd]
    exact h.cmd_eq n a ha hn
  fresh n hn hk := by
    rw [setPayload_cmd]
    exact h.fresh n hn hk
  payload_eq n a ha hn := by
    have hlt := (List.getElem?_eq_some_iff.mp ha).1
    rw [setPayload_of_ne m (unread_slot_ne h hroom n (h.consumed_eq.trans_le hn) hlt)]
    exact h.payload_eq n a ha hn
  staged_eq _ := by simp
  last := eventOk_cons (unread_slot_ne h hroom)

theorem accepted_snoc {n : ℕ} {a : Msg} (hlen : (accepted t).length = s.head)
    (hcur : lastSend t = s.cur) (ha : (accepted t ++ [lastSend t])[n]? = some a) :
    (accepted t)[n]? = some a ∨ n = s.head ∧ a = s.cur := by
  rw [List.getElem?_append] at ha
  split at ha
  · exact Or.inl ha
  · right
    have hn : n - (accepted t).length = 0 := by
      by_contra hne
      rw [List.getElem?_eq_none (by simp; omega)] at ha
      simp at ha
    rw [hn] at ha
    simp only [List.getElem?_cons_zero,Option.some.injEq] at ha
    exact ⟨by omega,by rw [← ha,hcur]⟩

theorem accepted_mono {n : ℕ} {a : Msg} (ha : (accepted t)[n]? = some a) :
    (accepted t ++ [lastSend t])[n]? = some a := by
  rw [List.getElem?_append_left (List.getElem?_eq_some_iff.mp ha).1]
  exact ha

theorem inv_storeCmd (h : Inv k m t s r) (hroom : s.head < s.tail + 2^k)
    (hst : s.staged = true) (hret : s.ret = s.head) (u : Unit) :
    Inv k (m.setCmd (s.head % 2^k) (s.cur.cmd ||| lapParity k s.head))
      (.act .sender (.storeCmd (s.head % 2^k) (s.cur.cmd ||| lapParity k s.head)) u::t)
      { s with head := s.head + 1, staged := false } r where
  __ := h
  accepted_len := by
    change (accepted t ++ [lastSend t]).length = s.head + 1
    simp [h.accepted_len]
  returned_eq := by
    change returned t = (accepted t ++ [lastSend t]).take s.ret
    rw [List.take_append_of_le_length (by rw [h.accepted_len,hret])]
    exact h.returned_eq
  returned_le := ⟨by dsimp only; omega,by dsimp only; omega⟩
  unreturned _ := by
    change (accepted t ++ [lastSend t])[s.ret]? = some s.cur
    rw [hret,← h.accepted_len,List.getElem?_concat_length,h.cur_eq]
  looked hclear := h.looked fun a ha => hclear a (List.mem_append_left _ ha)
  head_le := h.head_le.trans (Nat.le_succ _)
  room := hroom
  cmd_eq n a ha hn := by
    rcases accepted_snoc h.accepted_len h.cur_eq ha with ha | ⟨rfl,rfl⟩
    · have hlt := lt_head_of_accepted h ha
      dsimp only at hn
      rw [setCmd_of_ne m (slot_ne hlt (by omega))]
      exact h.cmd_eq n a ha (by omega)
    · simp
  fresh n hn hk := by
    dsimp only at hn
    have hne : n ≠ s.head % 2^k := by
      have := Nat.mod_le s.head (2^k)
      omega
    rw [setCmd_of_ne m hne]
    exact h.fresh n (by omega) hk
  payload_eq n a ha hn := by
    rw [setCmd_payload]
    rcases accepted_snoc h.accepted_len h.cur_eq ha with ha | ⟨rfl,rfl⟩
    · exact h.payload_eq n a ha hn
    · exact h.staged_eq hst
  staged_eq hf := by simp at hf
  full n a ha hn := by
    rcases accepted_snoc h.accepted_len h.cur_eq ha with ha | ⟨rfl,rfl⟩
    · exact h.full n a ha hn
    · have := h.head_le
      omega
  got_eq c hc := by
    obtain ⟨a,ha,hw⟩ := h.got_eq c hc
    exact ⟨a,accepted_mono ha,hw⟩
  paid_eq p hp := by
    obtain ⟨a,ha,hw⟩ := h.paid_eq p hp
    exact ⟨a,accepted_mono ha,hw⟩
  received_eq := by
    have hle : r.ret ≤ ((accepted t).map masked).length := by
      rw [List.length_map,h.accepted_len]
      exact h.ret_le.trans h.head_le
    change received t = ((accepted t ++ [lastSend t]).map masked).take r.ret
    rw [List.map_append,List.take_append_of_le_length hle]
    exact h.received_eq
  out_some x hx := by
    obtain ⟨hr,hx⟩ := h.out_some x hx
    refine ⟨hr,?_⟩
    change ((accepted t ++ [lastSend t]).map masked)[r.ret]? = some x
    rw [List.map_append,List.getElem?_append_left (List.getElem?_eq_some_iff.mp hx).1]
    exact hx
  last := eventOk_cons (unread_slot_ne h hroom)

theorem inv_loadWb (h : Inv k m t s r) (w : BitVec 32) :
    Inv k m (.act .sender .loadWb w::t) { s with tail := r.head } r where
  __ := h
  seen_eq := h.consumed_eq
  tail_le := le_rfl
  room := by
    have := h.room
    have := h.tail_le
    dsimp only
    omega
  last := eventOk_cons trivial

/-- A full slot at the receiver's position holds the next message: an older word of the
same slot carries the other parity, and a word never written carries none. -/
theorem next_of_parity (h : Inv k m t s r)
    (hp : (m.tbl (r.head % 2^k)).cmd &&& doneParity = lapParity k r.head) :
    ∃ a, (accepted t)[r.head]? = some a ∧
      (m.tbl (r.head % 2^k)).cmd = a.cmd ||| lapParity k r.head := by
  have hlen := h.accepted_len
  have htl := h.tail_le
  have hroom := h.room
  rcases Nat.lt_or_ge r.head s.head with hlt | hge
  · have ha := List.getElem?_eq_getElem (show r.head < (accepted t).length by omega)
    exact ⟨_,ha,h.cmd_eq _ _ ha (by omega)⟩
  · exfalso
    have hle := h.head_le
    rcases Nat.lt_or_ge r.head (2^k) with hk | hk
    · rw [Nat.mod_eq_of_lt hk,h.fresh _ hge hk,lapParity_of_lt hk] at hp
      exact absurd hp (by decide)
    · obtain ⟨n,hn⟩ := Nat.exists_eq_add_of_le' hk
      have hpos : 0 < 2^k := Nat.two_pow_pos k
      have ha := List.getElem?_eq_getElem (show n < (accepted t).length by omega)
      rw [hn,Nat.add_mod_right,h.cmd_eq n _ ha (by omega),h.full n _ ha (by omega)] at hp
      exact lapParity_add_ne k n hp.symm

theorem inv_loadCmd (h : Inv k m t s r) :
    Inv k m (.act .receiver (.loadCmd (r.head % 2^k)) (m.tbl (r.head % 2^k)).cmd::t) s
      { r with
        got := if (m.tbl (r.head % 2^k)).cmd &&& doneParity = lapParity k r.head
          then some (m.tbl (r.head % 2^k)).cmd else none
        seen := decide ((m.tbl (r.head % 2^k)).cmd &&& doneParity = lapParity k r.head) } where
  __ := h
  looked hclear := by
    change decide _ = decide (consumed t < (accepted t).length)
    rw [decide_eq_decide,h.consumed_eq]
    constructor
    · intro hp
      obtain ⟨a,ha,-⟩ := next_of_parity h hp
      exact (List.getElem?_eq_some_iff.mp ha).1
    · intro hlt
      have ha := List.getElem?_eq_getElem hlt
      have htl := h.tail_le
      have hroom := h.room
      rw [h.cmd_eq _ _ ha (by omega)]
      exact or_lapParity_of_clear k _ (hclear _ (List.getElem_mem hlt))
  got_eq c hc := by
    dsimp only at hc
    split at hc
    · rename_i hp
      obtain ⟨a,ha,hw⟩ := next_of_parity h hp
      obtain rfl := some.inj hc
      exact ⟨a,ha,hw,hp⟩
    · simp at hc
  last := eventOk_cons trivial

theorem inv_loadPayload (h : Inv k m t s r) (hg : r.got.isSome) :
    Inv k m (.act .receiver (.loadPayload (r.head % 2^k)) (m.tbl (r.head % 2^k)).payload::t) s
      { r with paid := some (m.tbl (r.head % 2^k)).payload } where
  __ := h
  paid_eq p hp := by
    obtain ⟨c,hc⟩ := isSome_iff_exists.mp hg
    obtain ⟨a,ha,_⟩ := h.got_eq c hc
    obtain rfl := some.inj hp
    exact ⟨a,ha,h.payload_eq _ a ha le_rfl⟩
  last := eventOk_cons trivial

theorem inv_storeWb (h : Inv k m t s r) {c p : BitVec 64} (hc : r.got = some c)
    (hp : r.paid = some p) (ho : r.out = none) (u : Unit) :
    Inv k { m with recvHeadWb := word (r.head+1) }
      (.act .receiver (.storeWb (word (r.head+1))) u::t) s
      ⟨r.head+1,r.ret,none,none,some ⟨c &&& cmdMask,p⟩,r.seen⟩ := by
  obtain ⟨a,ha,hw,hpar⟩ := h.got_eq c hc
  obtain ⟨b,hb,hpay⟩ := h.paid_eq p hp
  obtain rfl : a = b := some.inj (ha.symm.trans hb)
  have hlt := lt_head_of_accepted h ha
  have hret := h.out_none ho
  have hm : masked a = ⟨c &&& cmdMask,p⟩ := by
    rw [hw,mask_or_lapParity,hpay]
    rfl
  exact {
    __ := h
    consumed_eq := by
      change consumed t + 1 = r.head + 1
      rw [h.consumed_eq]
    wb_eq := rfl
    tail_le := h.tail_le.trans (Nat.le_succ _)
    head_le := hlt
    payload_eq := fun n b hb hn => h.payload_eq n b hb (Nat.le_of_succ_le hn)
    full := fun n b hb hn => by
      rcases Nat.lt_succ_iff_lt_or_eq.mp hn with hn | rfl
      · exact h.full n b hb hn
      · obtain rfl : a = b := some.inj (ha.symm.trans hb)
        rw [← hw]
        exact hpar
    got_eq := fun _ hf => by simp at hf
    paid_eq := fun _ hf => by simp at hf
    ret_le := h.ret_le.trans (Nat.le_succ _)
    out_none := fun hf => by simp at hf
    out_some := fun x hx => by
      obtain rfl := some.inj hx
      refine ⟨by rw [hret],?_⟩
      change ((accepted t).map masked)[r.ret]? = _
      rw [hret,List.getElem?_map,ha,map_some,hm]
    last := eventOk_cons trivial }

theorem inv_send (h : Inv k m t s r) (hst : s.staged = false) (hret : s.ret = s.head)
    (cmd p : BitVec 64) :
    Inv k m (.start .sender (.send cmd p)::t) { s with cur := ⟨cmd,p⟩ } r where
  __ := h
  cur_eq := rfl
  staged_eq hf := by simp [hst] at hf
  unreturned hlt := absurd hlt (by dsimp only; omega)
  last := eventOk_cons trivial

theorem inv_pollSendTail (h : Inv k m t s r) : Inv k m (.start .sender .pollSendTail::t) s r where
  __ := h
  last := eventOk_cons trivial

theorem inv_recvCall (h : Inv k m t s r) (c : RecvCall) :
    Inv k m (.start .receiver c::t) s r where
  __ := h
  last := eventOk_cons trivial

/-- What a call of the sender has come to when it ends. -/
def Ended (k : ℕ) (c : SendCall) (v : SendView) : SendRet → Prop
  | .sent true => v.head = v.ret + 1 ∧ c = .send v.cur.cmd v.cur.payload
  | .sent false => v.ret = v.head ∧ v.head = v.tail + 2^k
  | .tail w => v.ret = v.head ∧ w = word v.tail

theorem inv_sent (h : Inv k m t s r) {c : SendCall} {v : SendRet} (hv : Ended k c s v) :
    Inv k m (.done .sender c v::t) { s with ret := s.head } r := by
  have hsame : s.ret = s.head → returned t = (accepted t).take s.head := fun hret => by
    rw [h.returned_eq,hret]
  have hlt : ¬s.head < s.head := Nat.lt_irrefl _
  match v,hv with
  | .sent true,⟨hhead,hc⟩ =>
    subst hc
    refine { __ := h, returned_eq := ?_, returned_le := ⟨le_rfl,Nat.le_succ _⟩
             unreturned := fun h => absurd h hlt, last := eventOk_cons trivial }
    change returned t ++ [s.cur] = (accepted t).take s.head
    rw [hhead,List.take_add_one,h.unreturned (by omega),h.returned_eq]
    rfl
  | .sent false,⟨hret,hfull⟩ =>
    refine { __ := h, returned_eq := ?_, returned_le := ⟨le_rfl,Nat.le_succ _⟩
             unreturned := fun h => absurd h hlt, last := eventOk_cons ?_ }
    · cases c <;> exact hsame hret
    · cases c with
      | send cmd p =>
        change (accepted t).length = seenConsumed t + 2^k
        rw [h.accepted_len,h.seen_eq,hfull]
      | pollSendTail => trivial
  | .tail w,⟨hret,hw⟩ =>
    refine { __ := h, returned_eq := ?_, returned_le := ⟨le_rfl,Nat.le_succ _⟩
             unreturned := fun h => absurd h hlt, last := eventOk_cons ?_ }
    · cases c <;> exact hsame hret
    · have hw : w = word (seenConsumed t) := by rw [hw,h.seen_eq]
      cases c <;> exact hw

theorem inv_returned (h : Inv k m t s r) {x : Msg} (ho : r.out = some x) (c : RecvCall) :
    Inv k m (.done .receiver c (.msg (some x))::t) s { r with ret := r.ret + 1, out := none } := by
  obtain ⟨hret,hx⟩ := h.out_some x ho
  exact {
    __ := h
    received_eq := by
      change received t ++ [x] = ((accepted t).map masked).take (r.ret+1)
      rw [List.take_add_one,hx,h.received_eq]
      rfl
    ret_le := hret.le
    out_none := fun _ => hret
    out_some := fun _ hf => by simp at hf
    last := eventOk_cons trivial }

theorem inv_notReturned (h : Inv k m t s r) (c : RecvCall) {v : RecvRet}
    (hv : v = .msg none ∧ r.seen = false ∨ v = .empty !r.seen) :
    Inv k m (.done .receiver c v::t) s r := by
  obtain ⟨rfl,hseen⟩ | rfl := hv
  · exact { __ := h, last := eventOk_cons fun hclear => (h.looked hclear).symm.trans hseen }
  · exact { __ := h, last := eventOk_cons fun hclear => congrArg not (h.looked hclear) }

end Steps

/-! ### The calls -/

/-- The sender's words stand for its two counts. -/
def sendWords (k : ℕ) (ch : ChanOut) (v : SendView) : Prop :=
  ch = ⟨word v.head,word v.tail,word (2^k)⟩ ∧ v.tail ≤ v.head ∧ v.head ≤ v.tail + 2^k ∧
    v.staged = false

def sendRest (k : ℕ) (ch : ChanOut) (v : SendView) : Prop := sendWords k ch v ∧ v.ret = v.head

def recvRest (k : ℕ) (ch : ChanIn) (v : RecvView) : Prop :=
  ch = ⟨word v.head,word (2^k)⟩ ∧ v.out = none

def sendPost (k : ℕ) (c : SendCall) (ret : SendRet) (ch : ChanOut) (v : SendView) : Prop :=
  sendWords k ch v ∧ Ended k c v ret

def recvPost (k : ℕ) : RecvRet → ChanIn → RecvView → Prop
  | .msg (some x), ch, v => ch = ⟨word v.head,word (2^k)⟩ ∧ v.out = some x
  | .msg none, ch, v => recvRest k ch v ∧ v.seen = false
  | .empty b, ch, v => recvRest k ch v ∧ b = !v.seen

section Calls

variable {k : ℕ} (hk : k < 32)
include hk

theorem sub_toNat_of_room {v : SendView} (hle : v.tail ≤ v.head) (hroom : v.head ≤ v.tail + 2^k) :
    (word v.head - word v.tail).toNat = v.head - v.tail := by
  have hpow := Nat.pow_lt_pow_right (a:=2) (by norm_num) hk
  exact sub_toNat hle (by omega)

theorem full_iff {v : SendView} (hle : v.tail ≤ v.head) (hroom : v.head ≤ v.tail + 2^k) :
    word v.head - word v.tail = word (2^k) ↔ v.head = v.tail + 2^k := by
  rw [← BitVec.toNat_inj,sub_toNat_of_room hk hle hroom,size_toNat hk]
  omega

theorem full_le_iff {v : SendView} (hle : v.tail ≤ v.head) (hroom : v.head ≤ v.tail + 2^k) :
    word v.head - word v.tail ≥ word (2^k) ↔ v.head = v.tail + 2^k := by
  rw [ge_iff_le,BitVec.le_def,sub_toNat_of_room hk hle hroom,size_toNat hk]
  omega

omit hk in
/-- Behind the two stores the send has come to its end; `v` is the state before them. -/
theorem sendPost_stored {v : SendView} {cmd payload : BitVec 64} (hret : v.ret = v.head)
    (hle : v.tail ≤ v.head) (hlt : v.head < v.tail + 2^k) (hcur : v.cur = ⟨cmd,payload⟩) :
    sendPost k (.send cmd payload) (.sent true) ⟨word v.head + 1,word v.tail,word (2^k)⟩
      { v with head := v.head + 1, staged := false } := by
  refine ⟨⟨?_,Nat.le_succ_of_le hle,hlt,rfl⟩,?_,?_⟩
  · rw [word_add_one]
  · dsimp only
    omega
  · rw [hcur]

theorem lrpcSendInternal_obeys {v : SendView} {ch : ChanOut} (h : sendRest k ch v)
    {cmd payload : BitVec 64} (hcur : v.cur = ⟨cmd,payload⟩) :
    (lrpcSendInternal cmd payload).Obeys (sendRules k)
      (fun ok ch v => sendPost k (.send cmd payload) (.sent ok) ch v) ch v := by
  obtain ⟨⟨rfl,hle,hroom,hst⟩,hret⟩ := h
  simp only [lrpcSendInternal,obeys_bind,obeys_perform,obeys_tell,obeys_update,obeys_read,
    obeys_ite,obeys_pure]
  refine ⟨trivial,?_⟩
  rintro _ _ ⟨n,hn,hnh,rfl,rfl⟩
  have hroom' : v.head ≤ n + 2^k := by omega
  have hiff := full_iff hk (v:={ v with tail := n }) hnh hroom'
  refine ⟨fun hfull => ⟨⟨rfl,hnh,hroom',hst⟩,hret,hiff.mp hfull⟩,fun hfree => ?_⟩
  have hlt : v.head < n + 2^k := lt_of_le_of_ne hroom' fun he => hfree (hiff.mpr he)
  rw [slot_word hk,parity_word hk]
  refine ⟨⟨rfl,hlt,by rw [hcur]⟩,?_⟩
  rintro _ _ rfl
  refine ⟨⟨rfl,hlt,rfl,hret,by rw [hcur]⟩,?_⟩
  rintro _ _ rfl
  exact sendPost_stored (v:={ v with tail := n, staged := true }) hret hnh hlt hcur

theorem lrpcSend_obeys {v : SendView} {ch : ChanOut} (h : sendRest k ch v)
    {cmd payload : BitVec 64} (hcur : v.cur = ⟨cmd,payload⟩) :
    (lrpcSend cmd payload).Obeys (sendRules k)
      (fun ok ch v => sendPost k (.send cmd payload) (.sent ok) ch v) ch v := by
  have hrest := h
  obtain ⟨⟨rfl,hle,hroom,hst⟩,hret⟩ := h
  simp only [lrpcSend,obeys_bind,obeys_tell,obeys_update,obeys_read,obeys_ite,obeys_pure]
  have hiff := full_le_iff hk hle hroom
  refine ⟨fun _ => lrpcSendInternal_obeys hk hrest hcur,fun hfree => ?_⟩
  have hlt : v.head < v.tail + 2^k := lt_of_le_of_ne hroom fun he => hfree (hiff.mpr he)
  rw [slot_word hk,parity_word hk]
  refine ⟨⟨rfl,hlt,by rw [hcur]⟩,?_⟩
  rintro _ _ rfl
  refine ⟨⟨rfl,hlt,rfl,hret,by rw [hcur]⟩,?_⟩
  rintro _ _ rfl
  exact sendPost_stored (v:={ v with staged := true }) hret hle hlt hcur

theorem lrpcRecv_obeys {v : RecvView} {ch : ChanIn} (h : recvRest k ch v) :
    lrpcRecv.Obeys (recvRules k) (fun m ch v => recvPost k (.msg m) ch v) ch v := by
  obtain ⟨rfl,hout⟩ := h
  simp only [lrpcRecv,obeys_bind,obeys_perform,obeys_tell,obeys_update,obeys_read,obeys_ite,
    obeys_pure]
  rw [slot_word hk,parity_word hk]
  refine ⟨rfl,?_⟩
  rintro cmd _ rfl
  refine ⟨fun hempty => ⟨⟨rfl,hout⟩,decide_eq_false hempty⟩,fun hfull => ?_⟩
  rw [ne_eq,not_not] at hfull
  refine ⟨⟨rfl,by simp [hfull]⟩,?_⟩
  rintro payload _ rfl
  refine ⟨⟨by rw [word_add_one],hout,by simp [hfull],rfl⟩,?_⟩
  rintro _ _ ⟨c,p,hc,hp,rfl⟩
  simp only [hfull,ite_true,Option.some.injEq] at hc hp
  subst hc hp
  exact ⟨by rw [word_add_one],rfl⟩

theorem lrpcEmpty_obeys {v : RecvView} {ch : ChanIn} (h : recvRest k ch v) :
    lrpcEmpty.Obeys (recvRules k) (fun b ch v => recvPost k (.empty b) ch v) ch v := by
  obtain ⟨rfl,hout⟩ := h
  simp only [lrpcEmpty,obeys_bind,obeys_perform,obeys_read,obeys_pure]
  rw [slot_word hk,parity_word hk]
  refine ⟨rfl,?_⟩
  rintro cmd _ rfl
  exact ⟨⟨rfl,hout⟩,decide_not⟩

omit hk in
theorem lrpcPollSendTail_obeys {v : SendView} {ch : ChanOut} (h : sendRest k ch v) :
    lrpcPollSendTail.Obeys (sendRules k) (fun t ch v => sendPost k .pollSendTail (.tail t) ch v)
      ch v := by
  obtain ⟨⟨rfl,hle,hroom,hst⟩,hret⟩ := h
  simp only [lrpcPollSendTail,obeys_bind,obeys_perform,obeys_update,obeys_pure]
  refine ⟨trivial,?_⟩
  rintro _ _ ⟨n,hn,hnh,rfl,rfl⟩
  have hroom' : v.head ≤ n + 2^k := by omega
  exact ⟨⟨rfl,hnh,hroom',hst⟩,hret,rfl⟩

end Calls

/-! ### Every run -/

/-- The two ends as threads of one outline. -/
def fifoOutline (k : ℕ) (hk : k < 32) : Outline channel View where
  rules := rules k
  inv m t gs := Inv k m t (gs .sender) (gs .receiver)
  rest
    | .sender => sendRest k
    | .receiver => recvRest k
  post
    | .sender => sendPost k
    | .receiver => fun _ => recvPost k
  start := by
    intro m t gs i ch c hinv hrest _
    cases i with
    | sender =>
      cases c with
      | send cmd p =>
        have hrest' : sendRest k ch { gs .sender with cur := ⟨cmd,p⟩ } := hrest
        refine ⟨_,by simpa using inv_send hinv hrest.1.2.2.2 hrest.2 cmd p,?_⟩
        exact (obeys_map _ _).mpr (lrpcSend_obeys hk hrest' rfl)
      | pollSendTail =>
        refine ⟨gs .sender,by simpa using inv_pollSendTail hinv,?_⟩
        exact (obeys_map _ _).mpr (lrpcPollSendTail_obeys hrest)
    | receiver =>
      refine ⟨gs .receiver,by simpa using inv_recvCall hinv c,?_⟩
      cases c with
      | recv => exact (obeys_map _ _).mpr (lrpcRecv_obeys hk hrest)
      | empty => exact (obeys_map _ _).mpr (lrpcEmpty_obeys hk hrest)
  act := by
    intro m t gs i op r m' hinv hmay hsem
    cases i with
    | sender =>
      cases op with
      | storePayload i p =>
        obtain ⟨rfl,hroom,rfl⟩ := hmay
        obtain rfl := hsem
        exact ⟨_,rfl,by simpa using inv_storePayload hinv hroom r⟩
      | storeCmd i c =>
        obtain ⟨rfl,hroom,hst,hret,rfl⟩ := hmay
        obtain rfl := hsem
        exact ⟨_,rfl,by simpa using inv_storeCmd hinv hroom hst hret r⟩
      | loadWb =>
        obtain ⟨rfl,rfl⟩ := hsem
        exact ⟨_,⟨_,hinv.tail_le,hinv.head_le,hinv.wb_eq,rfl⟩,by simpa using inv_loadWb hinv _⟩
      | loadCmd _ => exact hmay.elim
      | loadPayload _ => exact hmay.elim
      | storeWb _ => exact hmay.elim
    | receiver =>
      cases op with
      | loadCmd i =>
        obtain rfl := hmay
        obtain ⟨rfl,rfl⟩ := hsem
        exact ⟨_,rfl,by simpa using inv_loadCmd hinv⟩
      | loadPayload i =>
        obtain ⟨rfl,hg⟩ := hmay
        obtain ⟨rfl,rfl⟩ := hsem
        exact ⟨_,rfl,by simpa using inv_loadPayload hinv hg⟩
      | storeWb w =>
        obtain ⟨rfl,hout,hg,hp⟩ := hmay
        obtain ⟨c,hc⟩ := isSome_iff_exists.mp hg
        obtain ⟨p,hp⟩ := isSome_iff_exists.mp hp
        obtain rfl := hsem
        exact ⟨_,⟨c,p,hc,hp,rfl⟩,by simpa using inv_storeWb hinv hc hp hout r⟩
      | storePayload _ _ => exact hmay.elim
      | storeCmd _ _ => exact hmay.elim
      | loadWb => exact hmay.elim
  done := by
    intro m t gs i ch c v hinv hpost
    cases i with
    | sender =>
      exact ⟨{ gs .sender with ret := (gs .sender).head },by simpa using inv_sent hinv hpost.2,
        hpost.1,rfl⟩
    | receiver =>
      cases v with
      | msg x =>
        cases x with
        | none =>
          exact ⟨gs .receiver,by simpa using inv_notReturned hinv c (Or.inl ⟨rfl,hpost.2⟩),hpost.1⟩
        | some x =>
          refine ⟨{ gs .receiver with ret := (gs .receiver).ret + 1, out := none },?_,hpost.1,rfl⟩
          simpa using inv_returned hinv hpost.2 c
      | empty b =>
        obtain ⟨hrest,rfl⟩ := hpost
        exact ⟨gs .receiver,by simpa using inv_notReturned hinv c (Or.inr rfl),hrest⟩

theorem isPowerOfTwo_word {size : BitVec 32} (h : isPowerOfTwo size = true) :
    ∃ k < 32, size = word (2^k) := by
  simp only [isPowerOfTwo,decide_eq_true_eq] at h
  obtain ⟨hne,hand⟩ := h
  have hpos : size.toNat ≠ 0 := fun h0 => hne (BitVec.eq_of_toNat_eq h0)
  have hsub : (size - 1).toNat = size.toNat - 1 := by
    have hlt := size.isLt
    have hone : (1 : BitVec 32).toNat = 1 := rfl
    rw [BitVec.toNat_sub,hone]
    omega
  have hz : size.toNat &&& (size.toNat - 1) = 0 := by
    have h0 := congrArg BitVec.toNat hand
    rwa [BitVec.toNat_and,hsub] at h0
  obtain ⟨k,hk⟩ := Nat.ne_zero_and_sub_one_eq_zero_iff_isPowerOfTwo.mp ⟨hpos,hz⟩
  have hlt : k < 32 := by
    by_contra hge
    have := Nat.pow_le_pow_right (show 0 < 2 by norm_num) (not_lt.mp hge)
    have := size.isLt
    omega
  exact ⟨k,hlt,BitVec.eq_of_toNat_eq (by rw [hk,size_toNat hlt])⟩

theorem initial_covered {k : ℕ} (hk : k < 32) :
    (fifoOutline k hk).Covers (initial ⟨0,0,word (2^k)⟩ ⟨0,word (2^k)⟩) := by
  let gs : (i : Side) → View i
    | .sender => ⟨0,0,0,false,⟨0,0⟩⟩
    | .receiver => ⟨0,0,none,none,none,false⟩
  refine ⟨gs,?_,?_⟩
  · constructor <;> simp [initial,gs,accepted,returned,consumed,seenConsumed,lastSend,received,
      available]
  · rintro (_ | _)
    · exact ⟨⟨rfl,le_rfl,Nat.zero_le _,rfl⟩,rfl⟩
    · exact ⟨rfl,rfl⟩

/-- The channel is a bounded FIFO: what has been received is a prefix of what has been
accepted, nothing unread is overwritten, and a send is refused only when `size` messages
have been accepted beyond those seen consumed.  The accepted messages are those whose send has
returned true, and that of the current send once its command is stored.  The receiver is told that
there is nothing just if there was nothing when it looked. -/
theorem channel_refines_fifo {size : BitVec 32} {out : ChanOut} {inp : ChanIn}
    {c : ChannelConfig} (hout : lrpcInitOut size = some out) (hinp : lrpcInitIn size = some inp)
    (hr : channel.Reach (initial out inp) c) :
    received c.trace <+: (accepted c.trace).map masked ∧
    (accepted c.trace = returned c.trace ∨ (c.thr .sender).run.isSome ∧
      accepted c.trace = returned c.trace ++ [lastSend c.trace]) ∧
    (∀ m ∈ accepted c.trace, m.cmd &&& doneParity = 0 → masked m = m) ∧
    (accepted c.trace).length ≤ consumed c.trace + size.toNat ∧
    (∀ n m, (accepted c.trace)[n]? = some m → consumed c.trace ≤ n →
      c.mem.tbl (n % size.toNat) = ⟨m.cmd ||| parity (word n) size,m.payload⟩) ∧
    (∀ i x u t n, (c.trace = .act .sender (.storePayload i x) u::t ∨
      c.trace = .act .sender (.storeCmd i x) u::t) → consumed t ≤ n →
      n < (accepted t).length → i ≠ n % size.toNat) ∧
    (∀ cmd p t, c.trace = .done .sender (.send cmd p) (.sent false)::t →
      (accepted t).length = seenConsumed t + size.toNat) ∧
    (∀ w t, c.trace = .done .sender .pollSendTail (.tail w)::t → w = word (seenConsumed t)) ∧
    (∀ t, Clear t →
      (c.trace = .done .receiver .recv (.msg none)::t → available t = false) ∧
      ∀ b, c.trace = .done .receiver .empty (.empty b)::t → b = !available t) := by
  simp only [lrpcInitOut,lrpcInitIn,ite_none_right_eq_some,Option.some.injEq] at hout hinp
  obtain ⟨hpow,rfl⟩ := hout
  obtain ⟨-,rfl⟩ := hinp
  obtain ⟨k,hk,rfl⟩ := isPowerOfTwo_word hpow
  obtain ⟨gs,h,htrack⟩ := Outline.covers (initial_covered hk) hr
  have hroom := h.room
  have htail := h.tail_le
  rw [size_toNat hk]
  refine ⟨?_,?_,fun m _ hm => masked_of_clear hm,?_,?_,?_,fun cmd p t ht => h.last _ _ ht,
    fun w t ht => h.last _ _ ht,fun t hclear => ⟨fun ht => h.last _ _ ht hclear,
      fun b ht => h.last _ _ ht hclear⟩⟩
  · rw [h.received_eq]
    exact List.take_prefix _ _
  · have hlen := h.accepted_len
    have hle := h.returned_le
    by_cases hret : (gs .sender).ret = (gs .sender).head
    · left
      rw [h.returned_eq,List.take_of_length_le (by omega)]
    · refine .inr ⟨?_,?_⟩
      · -- between calls all accepted messages have been returned
        by_contra hidle
        have hrest := htrack .sender
        simp only [Outline.OnTrack,Option.not_isSome_iff_eq_none.mp hidle] at hrest
        exact hret hrest.2
      · have hlast := h.unreturned (by omega)
        rw [h.cur_eq,h.returned_eq,← Option.toList_some,← hlast,← List.take_add_one,
          List.take_of_length_le (by omega)]
  · rw [h.accepted_len,h.consumed_eq]
    omega
  · intro n m hm hn
    rw [h.consumed_eq] at hn
    rw [parity_word hk,← h.cmd_eq n m hm (by omega),← h.payload_eq n m hm hn]
  · rintro i x u t n (ht | ht) hc hn
    · exact (h.last _ _ ht n hc hn).symm
    · exact (h.last _ _ ht n hc hn).symm

/-- A table of one slot: the second send is refused, the first one is received, and then the channel
is empty. -/
theorem channel_refines_fifo_one_slot :
    ∃ c, channel.Reach (initial ⟨0,0,1⟩ ⟨0,1⟩) c ∧ received c.trace = [⟨5,7⟩] ∧
      returned c.trace = [⟨5,7⟩] ∧ received c.trace <+: (accepted c.trace).map masked ∧
      accepted c.trace = returned c.trace := by
  have hrun : ((channel.play (fun _ => exec) (Move.runs [⟨.sender,.send 5 7,6,0⟩,
      ⟨.sender,.send 6 8,6,0⟩,⟨.receiver,.recv,7,0⟩,⟨.receiver,.empty,3,0⟩])
      (initial ⟨0,0,1⟩ ⟨0,1⟩)).map fun c => (received c.trace,returned c.trace,
        (c.thr .sender).run.isSome)) = some ([⟨5,7⟩],[⟨5,7⟩],false) := by decide
  obtain ⟨c,hreach,hrec⟩ := Threads.exists_reach (fun _ => exec_sem) hrun
  simp only [Prod.mk.injEq] at hrec
  obtain ⟨hrec,hret,hidle⟩ := hrec
  have hout : lrpcInitOut 1 = some ⟨0,0,1⟩ := rfl
  obtain ⟨hfifo,hacc,-⟩ := channel_refines_fifo hout rfl hreach
  exact ⟨c,hreach,hrec,hret,hfifo,hacc.resolve_right fun h => by simp [hidle] at h⟩

end Vessel.Lrpc
