import Mathlib.Logic.Function.Basic
import Mathlib.Data.List.Range

/-! A heap of any arity whose elements know their positions: next to the slots stands a table
that gives each owner the index of its slot.  Sifting only exchanges slots, and writes both
positions at every exchange. -/
namespace Vessel

open Function List
namespace IndexedHeap

/-- The slots of a heap, and the index each owner has on record. -/
structure Table (α ε : Type*) where
  slot : ℕ → α
  idx : ε → ℕ

variable {α ε : Type*} [DecidableEq ε] (own : α → ε) (key : α → ℕ) (d : ℕ)

/-- Write a slot and the index of its owner. -/
def Table.put (t : Table α ε) (i : ℕ) (x : α) : Table α ε :=
  ⟨update t.slot i x,update t.idx (own x) i⟩

/-- The loop of an upward sift of `tmp`, which stands in slot `i`. -/
def siftUpLoop (tmp : α) : ℕ → Table α ε → ℕ → Table α ε
  | 0,t,_ => t
  | fuel+1,t,i =>
    if i = 0 then t
    else if key (t.slot ((i-1)/d)) ≤ key tmp then t
    else siftUpLoop tmp fuel ((t.put own i (t.slot ((i-1)/d))).put own ((i-1)/d) tmp) ((i-1)/d)

-- a parent comes before its child, so the loop makes at most `i` rounds
def siftUp (t : Table α ε) (i : ℕ) : Table α ε :=
  siftUpLoop own key d (t.slot i) i t i

/-- The first of the slots `js` below `n` with the least key under `w`, else `c`. -/
def leastChild (t : Table α ε) (n : ℕ) : ℕ → Option ℕ → List ℕ → Option ℕ
  | _,c,[] => c
  | w,c,j::js =>
    if n ≤ j then c
    else if key (t.slot j) < w then leastChild t n (key (t.slot j)) (some j) js
    else leastChild t n w c js

def siftDownLoop (tmp : α) (n : ℕ) : ℕ → Table α ε → ℕ → Table α ε
  | 0,t,_ => t
  | fuel+1,t,i =>
    match leastChild key t n (key tmp) none (List.range' (i*d+1) d) with
    | none => t
    | some c => siftDownLoop tmp n fuel ((t.put own i (t.slot c)).put own c tmp) c

-- a child below `n` comes after its parent, so the loop makes at most `n` rounds
def siftDown (t : Table α ε) (i n : ℕ) : Table α ε :=
  siftDownLoop own key d (t.slot i) n n t i

/-- Every owner of one of the first `n` slots has its index on record. -/
def Indexed (n : ℕ) (t : Table α ε) : Prop := ∀ j < n, t.idx (own (t.slot j)) = j

/-- `x` is in one of the first `n` slots. -/
def Table.Holds (t : Table α ε) (n : ℕ) (x : α) : Prop := ∃ j < n, t.slot j = x

/-- `t'` has the elements of `t` in some order in the first `n` slots, and is indexed if `t` is. -/
structure Rearranged (n : ℕ) (t t' : Table α ε) : Prop where
  indexed : Indexed own n t → Indexed own n t'
  holds : ∀ x, t'.Holds n x ↔ t.Holds n x
  others : ∀ e, (∀ x, t.Holds n x → own x ≠ e) → t'.idx e = t.idx e

variable {own key d} {n : ℕ} {t t' t'' : Table α ε}

@[simp] theorem Table.put_idx_of_ne {i : ℕ} {x : α} {e : ε} (he : own x ≠ e) :
    (t.put own i x).idx e = t.idx e := update_of_ne he.symm ..

section Slots

variable {x y : α} {i : ℕ}

omit [DecidableEq ε] in
theorem Indexed.inj (h : Indexed own n t) {j : ℕ} (hi : i < n) (hj : j < n)
    (heq : own (t.slot i) = own (t.slot j)) : i = j := by
  rw [← h i hi,heq,h j hj]

theorem Indexed.push (h : Indexed own n t) (hx : ∀ y, t.Holds n y → own y ≠ own x) :
    Indexed own (n+1) (t.put own n x) := by
  intro j hj
  simp only [Table.put,update_apply]
  rcases Nat.lt_succ_iff_lt_or_eq.mp hj with hlt | rfl
  · rw [if_neg hlt.ne,if_neg (hx _ ⟨j,hlt,rfl⟩)]
    exact h j hlt
  · simp

theorem holds_push : (t.put own n x).Holds (n+1) y ↔ t.Holds n y ∨ y = x := by
  simp only [Table.Holds,Table.put,update_apply]
  constructor
  · rintro ⟨j,hj,rfl⟩
    rcases Nat.lt_succ_iff_lt_or_eq.mp hj with hlt | rfl
    · exact Or.inl ⟨j,hlt,by rw [if_neg hlt.ne]⟩
    · simp
  · rintro (⟨j,hj,rfl⟩ | rfl)
    · exact ⟨j,by omega,by rw [if_neg hj.ne]⟩
    · exact ⟨n,by omega,by simp⟩

omit [DecidableEq ε] in
theorem Indexed.pop (h : Indexed own (n+1) t) : Indexed own n t := fun j hj => h j (by omega)

omit [DecidableEq ε] in
theorem Indexed.holds_pop (h : Indexed own (n+1) t) :
    t.Holds n y ↔ t.Holds (n+1) y ∧ own y ≠ own (t.slot n) := by
  constructor
  · rintro ⟨j,hj,rfl⟩
    exact ⟨⟨j,by omega,rfl⟩,fun heq => hj.ne (h.inj (by omega) (by omega) heq)⟩
  · rintro ⟨⟨j,hj,rfl⟩,hne⟩
    have hjn : j ≠ n := fun heq => hne (by rw [heq])
    exact ⟨j,by omega,rfl⟩

theorem Indexed.fill (h : Indexed own (n+1) t) :
    Indexed own n (t.put own i (t.slot n)) := by
  intro j hj
  simp only [Table.put,update_apply]
  by_cases hji : j = i
  · simp [hji]
  · rw [if_neg hji,if_neg fun heq => hj.ne (h.inj (by omega) (by omega) heq)]
    exact h j (by omega)

theorem Indexed.holds_fill (h : Indexed own (n+1) t) (hi : i < n) :
    (t.put own i (t.slot n)).Holds n y ↔ t.Holds (n+1) y ∧ own y ≠ own (t.slot i) := by
  simp only [Table.Holds,Table.put,update_apply]
  constructor
  · rintro ⟨j,hj,rfl⟩
    split_ifs with hji
    · exact ⟨⟨n,by omega,rfl⟩,fun heq => hi.ne' (h.inj (by omega) (by omega) heq)⟩
    · exact ⟨⟨j,by omega,rfl⟩,fun heq => hji (h.inj (by omega) (by omega) heq)⟩
  · rintro ⟨⟨j,hj,rfl⟩,hne⟩
    have hji : j ≠ i := fun heq => hne (by rw [heq])
    by_cases hjn : j = n
    · exact ⟨i,hi,by rw [if_pos rfl,hjn]⟩
    · exact ⟨j,by omega,by rw [if_neg hji]⟩

end Slots

omit [DecidableEq ε] in
theorem Rearranged.refl : Rearranged own n t t := ⟨id,fun _ => Iff.rfl,fun _ _ => rfl⟩

omit [DecidableEq ε] in
theorem Rearranged.trans (h : Rearranged own n t t') (h' : Rearranged own n t' t'') :
    Rearranged own n t t'' where
  indexed hi := h'.indexed (h.indexed hi)
  holds x := (h'.holds x).trans (h.holds x)
  others e he := (h'.others e fun x hx => he x ((h.holds x).mp hx)).trans (h.others e he)

theorem Rearranged.exchange {i j : ℕ} {x : α} (hi : i < n) (hj : j < n) (hx : t.slot i = x) :
    Rearranged own n t ((t.put own i (t.slot j)).put own j x) := by
  subst hx
  refine ⟨fun hidx l hl => ?_,fun x => ?_,fun e he => ?_⟩
  · simp only [Table.put,update_apply]
    have := hidx i hi
    have := hidx j hj
    have := hidx l hl
    grind
  · simp only [Table.Holds,Table.put,update_apply]
    constructor
    · rintro ⟨l,hl,rfl⟩
      split_ifs
      · exact ⟨i,hi,rfl⟩
      · exact ⟨j,hj,rfl⟩
      · exact ⟨l,hl,rfl⟩
    · rintro ⟨l,hl,rfl⟩
      by_cases hlj : l = j
      · exact ⟨i,hi,by grind⟩
      · by_cases hli : l = i
        · exact ⟨j,hj,by grind⟩
        · exact ⟨l,hl,by grind⟩
  · simp only [Table.put,update_apply]
    have := he _ ⟨i,hi,rfl⟩
    have := he _ ⟨j,hj,rfl⟩
    grind

theorem siftUpLoop_rearranged {tmp : α} {fuel i : ℕ} (hi : i < n) (ht : t.slot i = tmp) :
    Rearranged own n t (siftUpLoop own key d tmp fuel t i) := by
  induction fuel generalizing t i with
  | zero => exact .refl
  | succ fuel ih =>
    rw [siftUpLoop]
    split
    · exact .refl
    split
    · exact .refl
    have hp : (i-1)/d < n := (Nat.div_le_self _ _).trans_lt (by omega)
    exact (Rearranged.exchange hi hp ht).trans (ih hp (update_self ..))

theorem siftUp_rearranged {i : ℕ} (hi : i < n) : Rearranged own n t (siftUp own key d t i) :=
  siftUpLoop_rearranged hi rfl

omit [DecidableEq ε] in
theorem leastChild_lt {js : List ℕ} {w c : ℕ} {o : Option ℕ} (ho : ∀ c ∈ o, c < n)
    (hc : leastChild key t n w o js = some c) : c < n := by
  induction js generalizing w o with
  | nil => exact ho c hc
  | cons j js ih =>
    rw [leastChild] at hc
    split at hc
    · exact ho c hc
    next hj =>
      split at hc
      · exact ih (by simp; omega) hc
      · exact ih ho hc

theorem siftDownLoop_rearranged {tmp : α} {fuel i : ℕ} (hi : i < n) (ht : t.slot i = tmp) :
    Rearranged own n t (siftDownLoop own key d tmp n fuel t i) := by
  induction fuel generalizing t i with
  | zero => exact .refl
  | succ fuel ih =>
    rw [siftDownLoop]
    split
    · exact .refl
    next c hc =>
      have hlt : c < n := leastChild_lt (by simp) hc
      exact (Rearranged.exchange hi hlt ht).trans (ih hlt (update_self ..))

theorem siftDown_rearranged {i : ℕ} (hi : i < n) : Rearranged own n t (siftDown own key d t i n) :=
  siftDownLoop_rearranged hi rfl

/-! ### Order -/

variable (key d) in
/-- No element of the first `n` slots is below its parent. -/
def Ordered (n : ℕ) (t : Table α ε) : Prop :=
  ∀ j, 0 < j → j < n → key (t.slot ((j-1)/d)) ≤ key (t.slot j)

variable (key d) in
/-- Only the element in slot `i` may be below its parent, and with its parent in its place all is in
order below. -/
structure UpReady (n : ℕ) (t : Table α ε) (i : ℕ) : Prop where
  rest : ∀ j, 0 < j → j < n → j ≠ i → key (t.slot ((j-1)/d)) ≤ key (t.slot j)
  below : 0 < i → ∀ j, 0 < j → j < n → (j-1)/d = i → key (t.slot ((i-1)/d)) ≤ key (t.slot j)

variable (key d) in
/-- Only the children of slot `i` may be below their parent, and none of them is below its
grandparent. -/
structure DownReady (n : ℕ) (t : Table α ε) (i : ℕ) : Prop where
  rest : ∀ j, 0 < j → j < n → (j-1)/d ≠ i → key (t.slot ((j-1)/d)) ≤ key (t.slot j)
  below : 0 < i → ∀ j, 0 < j → j < n → (j-1)/d = i → key (t.slot ((i-1)/d)) ≤ key (t.slot j)

section Order

variable {x tmp : α} {i j c m fuel : ℕ}

theorem parent_lt (hj : 0 < j) : (j-1)/d < j := (Nat.div_le_self _ _).trans_lt (by omega)

omit [DecidableEq ε] in
theorem Ordered.root_le (h : Ordered key d n t) (hj : j < n) : key (t.slot 0) ≤ key (t.slot j) := by
  induction j using Nat.strong_induction_on with
  | _ j ih =>
    rcases Nat.eq_zero_or_pos j with rfl | hpos
    · exact Nat.le_refl _
    · have hlt : (j-1)/d < j := parent_lt hpos
      exact (ih _ hlt (by omega)).trans (h j hpos hj)

theorem slot_exchange (k : ℕ) : ((t.put own i (t.slot j)).put own j x).slot k =
    if k = j then x else if k = i then t.slot j else t.slot k := by
  simp only [Table.put,update_apply]

theorem UpReady.exchange (h : UpReady key d n t i) (hi : 0 < i) (hin : i < n)
    (hlt : key tmp < key (t.slot ((i-1)/d))) :
    UpReady key d n ((t.put own i (t.slot ((i-1)/d))).put own ((i-1)/d) tmp) ((i-1)/d) := by
  have hpi : (i-1)/d < i := parent_lt hi
  constructor
  · intro j hj hjn hjp
    simp only [slot_exchange,if_neg hjp]
    by_cases hji : j = i
    · rw [if_pos (by rw [hji]),if_pos hji]
      exact hlt.le
    · rw [if_neg hji]
      by_cases hpar : (j-1)/d = (i-1)/d
      · rw [if_pos hpar]
        exact hlt.le.trans (hpar ▸ h.rest j hj hjn hji)
      · rw [if_neg hpar]
        split
        · next hpar' => exact h.below hi j hj hjn hpar'
        · exact h.rest j hj hjn hji
  · intro hp j hj hjn hpar
    have hpp : ((i-1)/d-1)/d < (i-1)/d := parent_lt hp
    have hup : key (t.slot (((i-1)/d-1)/d)) ≤ key (t.slot ((i-1)/d)) :=
      h.rest _ hp (by omega) hpi.ne
    have hjp : j ≠ (i-1)/d := by
      have hlt : (j-1)/d < j := parent_lt hj
      omega
    simp only [slot_exchange,if_neg hpp.ne,if_neg (hpp.trans hpi).ne,if_neg hjp]
    split
    · exact hup
    · next hji => exact hup.trans (hpar ▸ h.rest j hj hjn hji)

theorem siftUpLoop_ordered (hfuel : i ≤ fuel) (hin : i < n) (hx : t.slot i = tmp)
    (h : UpReady key d n t i) : Ordered key d n (siftUpLoop own key d tmp fuel t i) := by
  induction fuel generalizing t i with
  | zero =>
    obtain rfl : i = 0 := by omega
    exact fun j hj hjn => h.rest j hj hjn (by omega)
  | succ fuel ih =>
    rw [siftUpLoop]
    split
    · next hzero => exact fun j hj hjn => h.rest j hj hjn (by omega)
    · next hpos =>
      have hpos : 0 < i := Nat.pos_of_ne_zero hpos
      have hlt : (i-1)/d < i := parent_lt hpos
      split
      · next hle =>
        intro j hj hjn
        by_cases hji : j = i
        · rw [hji,hx]
          exact hle
        · exact h.rest j hj hjn hji
      · next hgt =>
        exact ih (by omega) (by omega) (update_self ..)
          (h.exchange hpos hin (Nat.lt_of_not_le hgt))

theorem siftUp_ordered (hin : i < n) (h : UpReady key d n t i) :
    Ordered key d n (siftUp own key d t i) := siftUpLoop_ordered (Nat.le_refl i) hin rfl h

omit [DecidableEq ε] in
variable (key) in
/-- The search of a round: no slot is under `w`, or it finds the least of them. -/
theorem leastChild_cases {js : List ℕ} {w : ℕ} {b : Option ℕ} (hjs : js.Pairwise (· < ·)) :
    (leastChild key t n w b js = b ∧ ∀ j ∈ js, j < n → w ≤ key (t.slot j)) ∨
      ∃ c ∈ js, leastChild key t n w b js = some c ∧ c < n ∧ key (t.slot c) < w ∧
        ∀ j ∈ js, j < n → key (t.slot c) ≤ key (t.slot j) := by
  induction js generalizing w b with
  | nil => exact Or.inl ⟨rfl,fun j hj => absurd hj not_mem_nil⟩
  | cons i js ih =>
    obtain ⟨hi,hjs⟩ := pairwise_cons.mp hjs
    rw [leastChild]
    split
    · next hni =>
      -- the later slots are out of range as well
      refine Or.inl ⟨rfl,fun j hj hjn => ?_⟩
      rcases mem_cons.mp hj with rfl | hj
      · omega
      · have := hi j hj
        omega
    · next hin =>
      split
      · next hlt =>
        rcases ih (w:=key (t.slot i)) (b:=some i) hjs with ⟨heq,hle⟩ | ⟨c,hc,heq,hcn,hcw,hle⟩
        · exact Or.inr ⟨i,mem_cons_self,heq,by omega,hlt,
            forall_mem_cons.mpr ⟨fun _ => Nat.le_refl _,hle⟩⟩
        · exact Or.inr ⟨c,mem_cons_of_mem _ hc,heq,hcn,hcw.trans hlt,
            forall_mem_cons.mpr ⟨fun _ => hcw.le,hle⟩⟩
      · next hge =>
        rcases ih (w:=w) (b:=b) hjs with ⟨heq,hle⟩ | ⟨c,hc,heq,hcn,hcw,hle⟩
        · exact Or.inl ⟨heq,forall_mem_cons.mpr ⟨fun _ => Nat.le_of_not_lt hge,hle⟩⟩
        · exact Or.inr ⟨c,mem_cons_of_mem _ hc,heq,hcn,hcw,
            forall_mem_cons.mpr ⟨fun _ => hcw.le.trans (Nat.le_of_not_lt hge),hle⟩⟩

theorem mem_children (hd : 0 < d) : j ∈ List.range' (i*d+1) d ↔ 0 < j ∧ (j-1)/d = i := by
  rw [mem_range'_1,Nat.div_eq_iff hd]
  omega

theorem DownReady.exchange (h : DownReady key d n t i) (hc : 0 < c) (hcn : c < n)
    (hci : (c-1)/d = i) (hlt : key (t.slot c) < key tmp)
    (hle : ∀ j, 0 < j → j < n → (j-1)/d = i → key (t.slot c) ≤ key (t.slot j)) :
    DownReady key d n ((t.put own i (t.slot c)).put own c tmp) c := by
  have hic : i < c := hci ▸ parent_lt hc
  constructor
  · intro j hj hjn hjc
    simp only [slot_exchange,if_neg hjc]
    by_cases hpar : (j-1)/d = i
    · rw [if_pos hpar]
      split
      · exact hlt.le
      · next hne =>
        rw [if_neg (hpar ▸ (parent_lt hj).ne')]
        exact hle j hj hjn hpar
    · rw [if_neg hpar,if_neg (by rintro rfl; exact hpar hci)]
      split
      · next hji =>
        rw [hji]
        exact h.below (hji ▸ hj) c hc hcn hci
      · exact h.rest j hj hjn hpar
  · intro _ j hj hjn hpar
    have hcj : c < j := hpar ▸ parent_lt hj
    simp only [slot_exchange,hci,if_neg hic.ne,if_neg hcj.ne',if_neg (hic.trans hcj).ne',if_true]
    exact hpar ▸ h.rest j hj hjn (hpar ▸ hic.ne')

theorem siftDownLoop_ordered (hd : 0 < d) (hfuel : n ≤ i + fuel) (hx : t.slot i = tmp)
    (h : DownReady key d n t i) : Ordered key d n (siftDownLoop own key d tmp n fuel t i) := by
  induction fuel generalizing t i with
  | zero =>
    intro j hj hjn
    have hlt : (j-1)/d < j := parent_lt hj
    exact h.rest j hj hjn (by omega)
  | succ fuel ih =>
    rw [siftDownLoop]
    have hjs : (List.range' (i*d+1) d).Pairwise (· < ·) := pairwise_lt_range'
    rcases leastChild_cases key (t:=t) (n:=n) (w:=key tmp) (b:=none) hjs with
      ⟨heq,hle⟩ | ⟨c,hc,heq,hcn,hlt,hle⟩
    · rw [heq]
      intro j hj hjn
      by_cases hpar : (j-1)/d = i
      · rw [hpar,hx]
        exact hle j ((mem_children hd).mpr ⟨hj,hpar⟩) hjn
      · exact h.rest j hj hjn hpar
    · obtain ⟨hc,hci⟩ := (mem_children hd).mp hc
      have hic : i < c := hci ▸ parent_lt hc
      rw [heq]
      exact ih (by omega) (update_self ..) (h.exchange hc hcn hci hlt
        fun j hj hjn hpar => hle j ((mem_children hd).mpr ⟨hj,hpar⟩) hjn)

theorem siftDown_ordered (hd : 0 < d) (h : DownReady key d n t i) :
    Ordered key d n (siftDown own key d t i n) :=
  siftDownLoop_ordered hd (Nat.le_add_left n i) rfl h

/-! ### The order of the operations -/

theorem Ordered.push (h : Ordered key d n t) : UpReady key d (n+1) (t.put own n x) n := by
  have hslot : ∀ j, j ≠ n → (t.put own n x).slot j = t.slot j := fun j hj =>
    update_of_ne hj ..
  constructor
  · intro j hj hjn hne
    have hlt : (j-1)/d < j := parent_lt hj
    rw [hslot _ (by omega),hslot j hne]
    exact h j hj (by omega)
  · intro _ j hj hjn hpar
    have hlt : (j-1)/d < j := parent_lt hj
    omega

omit [DecidableEq ε] in
theorem Ordered.mono (h : Ordered key d n t) (hm : m ≤ n) : Ordered key d m t :=
  fun j hj hjm => h j hj (by omega)

omit [DecidableEq ε] in
theorem Ordered.downReady (h : Ordered key d n t) : DownReady key d n t i where
  rest j hj hjn _ := h j hj hjn
  below hi j hj hjn hpar := by
    have hlt : (j-1)/d < j := parent_lt hj
    have hup := h j hj hjn
    rw [hpar] at hlt hup
    exact (h i hi (by omega)).trans hup

/-- Another element in slot `i` is ready to go down if it is not below its parent. -/
theorem Ordered.fill_down (h : Ordered key d n t) (hx : 0 < i → key (t.slot ((i-1)/d)) ≤ key x) :
    DownReady key d n (t.put own i x) i := by
  have hslot : ∀ j, j ≠ i → (t.put own i x).slot j = t.slot j := fun j hj =>
    update_of_ne hj ..
  constructor
  · intro j hj hjn hpar
    rw [hslot _ hpar]
    by_cases hji : j = i
    · rw [hji,show (t.put own i x).slot i = x from update_self ..]
      exact hx (hji ▸ hj)
    · rw [hslot j hji]
      exact h j hj hjn
  · intro hi j hj hjn hpar
    have hij : i < j := hpar ▸ parent_lt hj
    rw [hslot _ (parent_lt hi).ne,hslot j hij.ne']
    exact (h.downReady).below hi j hj hjn hpar

/-- Another element in slot `i` is ready to go up if it is below its parent. -/
theorem Ordered.fill_up (h : Ordered key d n t) (hi : 0 < i)
    (hx : key x < key (t.slot ((i-1)/d))) : UpReady key d n (t.put own i x) i := by
  have hslot : ∀ j, j ≠ i → (t.put own i x).slot j = t.slot j := fun j hj =>
    update_of_ne hj ..
  constructor
  · intro j hj hjn hji
    rw [hslot j hji]
    by_cases hpar : (j-1)/d = i
    · rw [hpar,show (t.put own i x).slot i = x from update_self ..]
      exact hx.le.trans ((h.downReady).below hi j hj hjn hpar)
    · rw [hslot _ hpar]
      exact h j hj hjn
  · intro _ j hj hjn hpar
    have hij : i < j := hpar ▸ parent_lt hj
    rw [hslot _ (parent_lt hi).ne,hslot j hij.ne']
    exact (h.downReady).below hi j hj hjn hpar

theorem siftUp_of_le (hx : 0 < i → key (t.slot ((i-1)/d)) ≤ key (t.slot i)) :
    siftUp own key d t i = t := by
  rw [siftUp]
  cases i with
  | zero => rfl
  | succ i => rw [siftUpLoop,if_neg (Nat.succ_ne_zero i),if_pos (hx (Nat.succ_pos i))]

theorem Ordered.fill (hd : 0 < d) (h : Ordered key d n t) (hin : i < n) :
    Ordered key d n (siftDown own key d (siftUp own key d (t.put own i x) i) i n) := by
  by_cases hup : 0 < i ∧ key x < key (t.slot ((i-1)/d))
  · exact siftDown_ordered hd (siftUp_ordered hin (h.fill_up hup.1 hup.2)).downReady
  · have hle : 0 < i → key (t.slot ((i-1)/d)) ≤ key x := fun hi =>
      Nat.le_of_not_lt fun hlt => hup ⟨hi,hlt⟩
    have hstay : siftUp own key d (t.put own i x) i = t.put own i x := by
      apply siftUp_of_le
      intro hi
      simp only [Table.put,update_self,update_of_ne (parent_lt hi).ne]
      exact hle hi
    rw [hstay]
    exact siftDown_ordered hd (h.fill_down hle)

end Order

end IndexedHeap
end Vessel
