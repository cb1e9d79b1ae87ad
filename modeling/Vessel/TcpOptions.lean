import Mathlib.Data.Int.Notation
import Mathlib.Tactic.Common

/-! Options of a TCP header (`tcp_parse_options` in `tcp_in.c`).
The option area is followed by other memory, which the loop may run into; every byte that
it reads is recorded by its offset from the start of the area. -/
namespace Vessel

def tcpOptEol : UInt8 := 0

def tcpOptNop : UInt8 := 1

def tcpOptMss : UInt8 := 2

def tcpOptWscale : UInt8 := 3

def tcpOlenMss : UInt8 := 4

def tcpOlenWscale : UInt8 := 3

/-- The variables of the loop: the offset of `ptr`, `len`, the two values with the bits of
`opt_en` that say they are there, and the offsets read. -/
structure OptScan where
  pos : ℕ
  len : ℤ
  mss : Option ℕ
  wscale : Option ℕ
  reads : List ℕ

/-- Whether an iteration leaves the loop. -/
inductive OptNext
  | done (s : OptScan)
  | more (s : OptScan)

/-- The values of the two options that the loop knows. -/
def optValue (mem : ℕ → UInt8) (opcode opsize : UInt8) (s : OptScan) : OptScan :=
  if opcode = tcpOptMss ∧ opsize = tcpOlenMss then
    { s with
      mss := some ((mem (s.pos+2)).toNat*256 + (mem (s.pos+3)).toNat)
      reads := (s.pos+3)::(s.pos+2)::s.reads }
  else if opcode = tcpOptWscale ∧ opsize = tcpOlenWscale then
    { s with
      wscale := some (min (mem (s.pos+2)).toNat 14)
      reads := (s.pos+2)::s.reads }
  else s

/-- One iteration.  The pointer has passed two bytes of the option when its size is added. -/
def optStep (mem : ℕ → UInt8) (s : OptScan) : OptNext :=
  let opcode := mem s.pos
  let s := { s with reads := s.pos::s.reads }
  if opcode = tcpOptEol then .done s
  else if opcode = tcpOptNop then .more { s with pos := s.pos+1, len := s.len-1 }
  else
    let opsize := mem (s.pos+1)
    let s := optValue mem opcode opsize { s with reads := (s.pos+1)::s.reads }
    .more { s with pos := s.pos+opsize.toNat, len := s.len-opsize.toNat }

/-- The loop; none when it has not ended after `fuel` iterations. -/
def optLoop (mem : ℕ → UInt8) : (fuel : ℕ) → OptScan → Option OptScan
  | 0, s => if s.len ≤ 0 then some s else none
  | fuel+1, s =>
    if s.len ≤ 0 then some s
    else
      match optStep mem s with
      | .done s => some s
      | .more s => optLoop mem fuel s

/-- The loop on an area of `len` bytes, for as many iterations. -/
def scanOptions (mem : ℕ → UInt8) (len : ℕ) : Option OptScan :=
  optLoop mem len ⟨0,len,none,none,[]⟩

/-- The area and what follows it. -/
def optArea (bytes : List UInt8) (beyond : ℕ → UInt8) (i : ℕ) : UInt8 := bytes[i]?.getD (beyond i)

/-- Every option has its length byte in the area, the length is not 0, and the value of an
option that the loop knows is in the area too. -/
inductive OptionsOk : List UInt8 → Prop
  | nil : OptionsOk []
  | eol (rest : List UInt8) : OptionsOk (tcpOptEol::rest)
  | nop {rest : List UInt8} (h : OptionsOk rest) : OptionsOk (tcpOptNop::rest)
  | option {opcode opsize : UInt8} {rest : List UInt8} (hcode : tcpOptNop < opcode)
      (hsize : 0 < opsize)
      (hmss : opcode = tcpOptMss → opsize = tcpOlenMss → 2 ≤ rest.length)
      (hwscale : opcode = tcpOptWscale → opsize = tcpOlenWscale → 1 ≤ rest.length)
      (h : OptionsOk ((opcode::opsize::rest).drop opsize.toNat)) :
      OptionsOk (opcode::opsize::rest)

section Scan

variable {mem : ℕ → UInt8} {s s' : OptScan} {opcode opsize : UInt8}

@[simp] theorem optValue_pos : (optValue mem opcode opsize s).pos = s.pos := by
  unfold optValue
  split_ifs <;> rfl
@[simp] theorem optValue_len : (optValue mem opcode opsize s).len = s.len := by
  unfold optValue
  split_ifs <;> rfl

theorem optValue_reads (i : ℕ) : i ∈ (optValue mem opcode opsize s).reads ↔
    i ∈ s.reads ∨
    (opcode = tcpOptMss ∧ opsize = tcpOlenMss ∧ (i = s.pos+2 ∨ i = s.pos+3)) ∨
    opcode = tcpOptWscale ∧ opsize = tcpOlenWscale ∧ i = s.pos+2 := by
  have hne : tcpOptMss ≠ tcpOptWscale := by decide
  unfold optValue
  split_ifs with hm hw
  · obtain ⟨rfl,rfl⟩ := hm
    simp only [List.mem_cons]
    grind
  · obtain ⟨rfl,rfl⟩ := hw
    simp only [List.mem_cons]
    grind
  · grind

theorem optStep_eol (h : mem s.pos = tcpOptEol) :
    optStep mem s = .done { s with reads := s.pos::s.reads } := if_pos h

theorem optStep_nop (h : mem s.pos = tcpOptNop) :
    optStep mem s = .more ⟨s.pos+1,s.len-1,s.mss,s.wscale,s.pos::s.reads⟩ := by
  have hne : tcpOptNop ≠ tcpOptEol := by decide
  simp [optStep,h,hne]

theorem optStep_sized (h : tcpOptNop < mem s.pos) : optStep mem s = .more
    { optValue mem (mem s.pos) (mem (s.pos+1)) { s with reads := (s.pos+1)::s.pos::s.reads } with
      pos := s.pos + (mem (s.pos+1)).toNat
      len := s.len - (mem (s.pos+1)).toNat } := by
  have heol : mem s.pos ≠ tcpOptEol := by
    intro he
    rw [he] at h
    exact absurd h (by decide)
  have hnop : mem s.pos ≠ tcpOptNop := by
    intro he
    rw [he] at h
    exact absurd h (by decide)
  rw [optStep,if_neg heol,if_neg hnop]
  simp

theorem optStep_option (h : tcpOptNop < mem s.pos) :
    ∃ s', optStep mem s = .more s' ∧ s'.pos = s.pos + (mem (s.pos+1)).toNat ∧
      s'.len = s.len - (mem (s.pos+1)).toNat ∧
      ∀ i, i ∈ s'.reads ↔ i ∈ s.reads ∨ i = s.pos ∨ i = s.pos+1 ∨
        (mem s.pos = tcpOptMss ∧ mem (s.pos+1) = tcpOlenMss ∧ (i = s.pos+2 ∨ i = s.pos+3)) ∨
        mem s.pos = tcpOptWscale ∧ mem (s.pos+1) = tcpOlenWscale ∧ i = s.pos+2 := by
  refine ⟨_,optStep_sized h,rfl,rfl,fun i => ?_⟩
  simp only [optValue_reads,List.mem_cons]
  grind

theorem opcode_cases (opcode : UInt8) :
    opcode = tcpOptEol ∨ opcode = tcpOptNop ∨ tcpOptNop < opcode := by
  simp only [tcpOptEol,tcpOptNop,UInt8.lt_iff_toNat_lt,← UInt8.toNat_inj]
  simp
  omega

theorem optStep_reads (h : optStep mem s = .done s' ∨ optStep mem s = .more s') :
    s.reads ⊆ s'.reads ∧ s.pos ∈ s'.reads := by
  rcases opcode_cases (mem s.pos) with hop | hop | hop
  · rw [optStep_eol hop] at h
    simp only [OptNext.done.injEq,reduceCtorEq,or_false] at h
    simp [← h]
  · rw [optStep_nop hop] at h
    simp only [OptNext.more.injEq,reduceCtorEq,false_or] at h
    simp [← h]
  · obtain ⟨t,ht,-,-,hreads⟩ := optStep_option hop
    rw [ht] at h
    simp only [OptNext.more.injEq,reduceCtorEq,false_or] at h
    subst h
    exact ⟨fun i hi => (hreads i).mpr (Or.inl hi),(hreads _).mpr (Or.inr (Or.inl rfl))⟩

theorem optLoop_reads {fuel : ℕ} (h : optLoop mem fuel s = some s') : s.reads ⊆ s'.reads := by
  induction fuel generalizing s with
  | zero =>
    rw [optLoop,Option.ite_none_right_eq_some] at h
    rw [← Option.some.inj h.2]
    exact List.Subset.refl _
  | succ fuel ih =>
    rw [optLoop] at h
    split at h
    · rw [← Option.some.inj h]
      exact List.Subset.refl _
    · split at h
      · rename_i t ht
        rw [← Option.some.inj h]
        exact (optStep_reads (Or.inl ht)).1
      · rename_i t ht
        exact List.Subset.trans (optStep_reads (Or.inr ht)).1 (ih h)

/-- An option of size 0 is read again and again. -/
theorem optLoop_stuck (fuel : ℕ) (hlen : 0 < s.len) (hop : tcpOptNop < mem s.pos)
    (hsize : mem (s.pos+1) = 0) : optLoop mem fuel s = none := by
  induction fuel generalizing s with
  | zero => rw [optLoop,if_neg (by omega)]
  | succ fuel ih =>
    obtain ⟨t,ht,hpos,hlen',-⟩ := optStep_option hop
    rw [hsize,UInt8.toNat_zero] at hpos hlen'
    rw [optLoop,if_neg (by omega),ht]
    rw [Nat.add_zero] at hpos
    exact ih (by omega) (by rwa [hpos]) (by rwa [hpos])

/-- A loop that has not ended after as many iterations as `len` says never ends. -/
theorem optLoop_endless {n : ℕ} (hlen : s.len ≤ n) (h : optLoop mem n s = none) (fuel : ℕ) :
    optLoop mem fuel s = none := by
  induction n generalizing s fuel with
  | zero => simp [optLoop,show s.len ≤ 0 by omega] at h
  | succ n ih =>
    rw [optLoop] at h
    split at h
    · simp at h
    · rename_i hpos
      cases fuel with
      | zero => rw [optLoop,if_neg hpos]
      | succ fuel =>
        rcases opcode_cases (mem s.pos) with hop | hop | hop
        · simp [optStep_eol hop] at h
        · rw [optStep_nop hop] at h
          rw [optLoop,if_neg hpos,optStep_nop hop]
          exact ih (by dsimp only; omega) h fuel
        · by_cases hsize : mem (s.pos+1) = 0
          · exact optLoop_stuck (fuel+1) (by omega) hop hsize
          · obtain ⟨t,ht,-,hlen',-⟩ := optStep_option hop
            have hsize' : (mem (s.pos+1)).toNat ≠ 0 := by
              rwa [Ne,← UInt8.toNat_zero,UInt8.toNat_inj]
            rw [ht] at h
            rw [optLoop,if_neg hpos,ht]
            exact ih (by omega) h fuel

/-- A scan of `len` bytes, whatever they are, ends after at most `len` iterations or never. -/
theorem scanOptions_ends_or_never (mem : ℕ → UInt8) (len : ℕ) :
    (∃ s, scanOptions mem len = some s) ∨
      ∀ fuel, optLoop mem fuel ⟨0,len,none,none,[]⟩ = none := by
  cases h : scanOptions mem len with
  | some s => exact .inl ⟨s,rfl⟩
  | none => exact .inr (optLoop_endless (Int.le_refl _) h)

end Scan

section Area

variable {bytes rest : List UInt8} {beyond : ℕ → UInt8} {s s' : OptScan}

theorem optArea_drop (beyond : ℕ → UInt8) {p : ℕ} {x : UInt8} (h : bytes.drop p = x::rest) :
    optArea bytes beyond p = x ∧ p < bytes.length ∧ bytes.drop (p+1) = rest := by
  have hx : bytes[p]? = some x := by
    rw [← Nat.add_zero p,← List.getElem?_drop,h]
    rfl
  refine ⟨by rw [optArea,hx]; rfl,(List.getElem?_eq_some_iff.mp hx).1,?_⟩
  rw [← List.drop_drop,h]
  rfl

/-- A scan that stands in the area: `ptr` and `len` add up to its end. -/
def OptScan.At (s : OptScan) (n : ℕ) : Prop := s.len = (n : ℤ) - s.pos

theorem OptScan.At.add {t : OptScan} {n k : ℕ} (h : s.At n) (hpos : t.pos = s.pos+k)
    (hlen : t.len = s.len-k) : t.At n := by
  rw [OptScan.At] at h ⊢
  rw [hpos,hlen,h]
  push_cast
  omega

theorem optLoop_of_ok (hok : OptionsOk rest) : ∀ {s : OptScan} {fuel : ℕ},
    bytes.drop s.pos = rest → s.At bytes.length → rest.length ≤ fuel →
    (∀ i ∈ s.reads, i < bytes.length) →
    ∃ s', optLoop (optArea bytes beyond) fuel s = some s' ∧ ∀ i ∈ s'.reads, i < bytes.length := by
  induction hok with
  | nil =>
    intro s fuel hrest hat _ hreads
    have hend : bytes.length ≤ s.pos := List.drop_eq_nil_iff.mp hrest
    have hlen : s.len ≤ 0 := by
      rw [hat]
      omega
    refine ⟨s,?_,hreads⟩
    cases fuel <;> rw [optLoop,if_pos hlen]
  | eol rest =>
    intro s fuel hrest hat hfuel hreads
    obtain ⟨hop,hin,-⟩ := optArea_drop beyond hrest
    obtain ⟨fuel,rfl⟩ := Nat.exists_eq_add_of_le' (show 1 ≤ fuel by simp at hfuel; omega)
    have hlen : ¬s.len ≤ 0 := by
      rw [hat]
      omega
    refine ⟨_,by rw [optLoop,if_neg hlen,optStep_eol hop],?_⟩
    simpa [hin] using hreads
  | nop _ ih =>
    intro s fuel hrest hat hfuel hreads
    obtain ⟨hop,hin,hnext⟩ := optArea_drop beyond hrest
    obtain ⟨fuel,rfl⟩ := Nat.exists_eq_add_of_le' (show 1 ≤ fuel by simp at hfuel; omega)
    have hlen : ¬s.len ≤ 0 := by
      rw [hat]
      omega
    rw [optLoop,if_neg hlen,optStep_nop hop]
    exact ih hnext (OptScan.At.add hat rfl rfl) (by simpa using hfuel) (by simpa [hin] using hreads)
  | @option opcode opsize rest hcode hsize hmss hwscale _ ih =>
    intro s fuel hrest hat hfuel hreads
    obtain ⟨hop,hin,hnext⟩ := optArea_drop beyond hrest
    obtain ⟨hos,hin',hvalue⟩ := optArea_drop beyond hnext
    obtain ⟨fuel,rfl⟩ := Nat.exists_eq_add_of_le' (show 1 ≤ fuel by simp at hfuel; omega)
    have hlen : ¬s.len ≤ 0 := by
      rw [hat]
      omega
    have hleft : rest.length = bytes.length - (s.pos+2) := by rw [← hvalue,List.length_drop]
    obtain ⟨t,ht,hpos,hlen',hmem⟩ := optStep_option (s:=s) (hop ▸ hcode)
    rw [hop,hos] at hmem
    rw [hos] at hpos hlen'
    have hsize' : 0 < opsize.toNat := UInt8.lt_iff_toNat_lt.mp hsize
    rw [optLoop,if_neg hlen,ht]
    refine ih ?_ (OptScan.At.add hat hpos hlen') ?_ ?_
    · rw [hpos,← List.drop_drop,hrest]
    · simp only [List.length_drop,List.length_cons] at hfuel ⊢
      omega
    · intro i hi
      rcases (hmem i).mp hi with h | rfl | rfl | ⟨h1,h2,h3⟩ | ⟨h1,h2,rfl⟩
      · exact hreads i h
      · exact hin
      · exact hin'
      · have := hmss h1 h2
        omega
      · have := hwscale h1 h2
        omega

theorem exists_drop_cons {p : ℕ} (hp : p < bytes.length) : ∃ x rest, bytes.drop p = x::rest := by
  apply List.exists_cons_of_ne_nil
  intro hnil
  have := List.drop_eq_nil_iff.mp hnil
  omega

theorem ok_option {p : ℕ} (hin : p+1 < bytes.length) (hcode : tcpOptNop < optArea bytes beyond p)
    (hsize : optArea bytes beyond (p+1) ≠ 0)
    (hmss : optArea bytes beyond p = tcpOptMss → optArea bytes beyond (p+1) = tcpOlenMss →
      p+3 < bytes.length)
    (hwscale : optArea bytes beyond p = tcpOptWscale →
      optArea bytes beyond (p+1) = tcpOlenWscale → p+2 < bytes.length)
    (h : OptionsOk (bytes.drop (p + (optArea bytes beyond (p+1)).toNat))) :
    OptionsOk (bytes.drop p) := by
  obtain ⟨opcode,rest,hrest⟩ := exists_drop_cons (show p < bytes.length by omega)
  obtain ⟨hop,-,hnext⟩ := optArea_drop beyond hrest
  obtain ⟨opsize,value,hrest'⟩ := exists_drop_cons hin
  obtain ⟨hos,-,hvalue⟩ := optArea_drop beyond hrest'
  have hleft : value.length = bytes.length - (p+2) := by rw [← hvalue,List.length_drop]
  rw [hop,hos] at hmss hwscale
  rw [hos,← List.drop_drop,hrest] at h
  rw [hop] at hcode
  rw [hos] at hsize
  rw [hrest]
  obtain rfl : rest = opsize::value := hnext.symm.trans hrest'
  refine .option hcode (UInt8.pos_iff_ne_zero.mpr hsize) (fun h1 h2 => ?_) (fun h1 h2 => ?_) h
  · have := hmss h1 h2
    omega
  · have := hwscale h1 h2
    omega

/-- A scan that ends and stays in the area has met well-formed options only. -/
theorem ok_of_optLoop {fuel : ℕ} (h : optLoop (optArea bytes beyond) fuel s = some s')
    (hat : s.At bytes.length) (hreads : ∀ i ∈ s'.reads, i < bytes.length) :
    OptionsOk (bytes.drop s.pos) := by
  by_cases hend : bytes.length ≤ s.pos
  · rw [List.drop_eq_nil_of_le hend]
    exact .nil
  have hlen : ¬s.len ≤ 0 := by
    rw [hat]
    omega
  induction fuel generalizing s with
  | zero => simp [optLoop,hlen] at h
  | succ fuel ih =>
    have hstuck : tcpOptNop < optArea bytes beyond s.pos → optArea bytes beyond (s.pos+1) = 0 →
        optLoop (optArea bytes beyond) (fuel+1) s = none := optLoop_stuck (fuel+1) (by omega)
    rw [h] at hstuck
    rw [optLoop,if_neg hlen] at h
    -- the rest of the area after this option, which may be empty
    have hrest : ∀ t : OptScan, optLoop (optArea bytes beyond) fuel t = some s' →
        t.At bytes.length → OptionsOk (bytes.drop t.pos) := by
      intro t ht hatt
      by_cases hendt : bytes.length ≤ t.pos
      · rw [List.drop_eq_nil_of_le hendt]
        exact .nil
      · refine ih ht hatt hendt ?_
        rw [hatt]
        omega
    rcases opcode_cases (optArea bytes beyond s.pos) with hop | hop | hop
    · obtain ⟨x,rest,hdrop⟩ := exists_drop_cons (Nat.lt_of_not_le hend)
      rw [hdrop,← (optArea_drop beyond hdrop).1,hop]
      exact .eol rest
    · obtain ⟨x,rest,hdrop⟩ := exists_drop_cons (Nat.lt_of_not_le hend)
      obtain ⟨hx,-,hnext⟩ := optArea_drop beyond hdrop
      rw [optStep_nop hop] at h
      rw [hdrop,← hx,hop,← hnext]
      apply OptionsOk.nop
      exact hrest _ h (OptScan.At.add hat rfl rfl)
    · obtain ⟨t,ht,hpos,hlen',hmem⟩ := optStep_option (s:=s) hop
      rw [ht] at h
      have hsub : ∀ i ∈ t.reads, i < bytes.length := fun i hi => hreads i (optLoop_reads h hi)
      refine ok_option (hsub _ ((hmem _).mpr (by simp))) hop
        (fun h0 => by simpa using hstuck hop h0)
        (fun h1 h2 => hsub _ ((hmem _).mpr (by simp [h1,h2])))
        (fun h1 h2 => hsub _ ((hmem _).mpr (by simp [h1,h2]))) ?_
      rw [← hpos]
      exact hrest t h (OptScan.At.add hat hpos hlen')

end Area

/-- The loop ends after at most one iteration for each byte of the area and reads nothing
outside exactly when the options are well formed. -/
theorem scanOptions_bounded_iff (bytes : List UInt8) (beyond : ℕ → UInt8) :
    (∃ s, scanOptions (optArea bytes beyond) bytes.length = some s ∧
      ∀ i ∈ s.reads, i < bytes.length) ↔ OptionsOk bytes := by
  constructor
  · rintro ⟨s,hs,hreads⟩
    exact ok_of_optLoop hs (by simp [OptScan.At]) hreads
  · intro hok
    exact optLoop_of_ok hok rfl (by simp [OptScan.At]) (Nat.le_refl _) (by simp)

/-- The options of an ordinary SYN: a segment size, padding and a window scale. -/
theorem scanOptions_bounded_syn :
    ∃ s, scanOptions (optArea [2,4,5,180,1,3,3,7] fun _ => 0) 8 = some s ∧ ∀ i ∈ s.reads, i < 8 := by
  have hok : OptionsOk [2,4,5,180,1,3,3,7] :=
    .option (by decide) (by decide) (by simp) (by simp [tcpOptWscale])
      (.nop (.option (by decide) (by decide) (by simp [tcpOptMss]) (by simp) .nil))
  exact (scanOptions_bounded_iff _ _).mpr hok

/-- An option of size 0 is never passed, however long the loop runs, and an opcode in the
last byte has its length read behind the area. -/
theorem scanOptions_unbounded :
    (∀ fuel, optLoop (optArea [2,0] fun _ => 0) fuel ⟨0,2,none,none,[]⟩ = none) ∧
    ∃ s, scanOptions (optArea [8] fun _ => 1) 1 = some s ∧ 1 ∈ s.reads := by
  refine ⟨fun fuel => optLoop_stuck fuel (by decide) (by decide) rfl,_,rfl,by decide⟩

/-! ### What options offer -/

structure Offer where
  mss : Option ℕ
  wscale : Option ℕ

/-- A list of options offers the last segment size and the last scale in it.  A scale is at most
14. -/
inductive Offers : List UInt8 → Offer → Prop
  | nil : Offers [] ⟨none,none⟩
  | eol (rest : List UInt8) : Offers (tcpOptEol::rest) ⟨none,none⟩
  | nop {rest : List UInt8} {o : Offer} (h : Offers rest o) : Offers (tcpOptNop::rest) o
  | mss {rest : List UInt8} {o : Offer} (hi lo : UInt8) (h : Offers rest o) :
      Offers (tcpOptMss::tcpOlenMss::hi::lo::rest)
        { o with mss := o.mss.or (some (hi.toNat*256 + lo.toNat)) }
  | wscale {rest : List UInt8} {o : Offer} (w : UInt8) (hw : w.toNat ≤ 14) (h : Offers rest o) :
      Offers (tcpOptWscale::tcpOlenWscale::w::rest)
        { o with wscale := o.wscale.or (some w.toNat) }
  | other {body rest : List UInt8} {o : Offer} {opcode opsize : UInt8} (hcode : tcpOptNop < opcode)
      (hsize : opsize.toNat = body.length+2) (hmss : ¬(opcode = tcpOptMss ∧ opsize = tcpOlenMss))
      (hwscale : ¬(opcode = tcpOptWscale ∧ opsize = tcpOlenWscale)) (h : Offers rest o) :
      Offers (opcode::opsize::(body ++ rest)) o

section Offers

variable {mem : ℕ → UInt8} {bytes rest : List UInt8} {beyond : ℕ → UInt8} {s : OptScan}
  {opcode opsize : UInt8} {o : Offer}

theorem optLoop_sized {fuel : ℕ} (hrest : bytes.drop s.pos = opcode::opsize::rest)
    (hat : s.At bytes.length) (hcode : tcpOptNop < opcode) :
    optLoop (optArea bytes beyond) (fuel+1) s = optLoop (optArea bytes beyond) fuel
      { optValue (optArea bytes beyond) opcode opsize
          { s with reads := (s.pos+1)::s.pos::s.reads } with
        pos := s.pos + opsize.toNat
        len := s.len - opsize.toNat } := by
  obtain ⟨hop,hin,hnext⟩ := optArea_drop beyond hrest
  obtain ⟨hos,-,-⟩ := optArea_drop beyond hnext
  have hlen : ¬s.len ≤ 0 := by
    rw [hat]
    omega
  rw [optLoop,if_neg hlen,optStep_sized (hop ▸ hcode),hop,hos]

/-- The scan finds what is offered, and keeps what it has where nothing is. -/
theorem optLoop_offers (hoffers : Offers rest o) : ∀ {s : OptScan} {fuel : ℕ},
    bytes.drop s.pos = rest → s.At bytes.length → rest.length ≤ fuel →
    ∃ s', optLoop (optArea bytes beyond) fuel s = some s' ∧ s'.mss = o.mss.or s.mss ∧
      s'.wscale = o.wscale.or s.wscale := by
  induction hoffers with
  | nil =>
    intro s fuel hrest hat _
    have hend : bytes.length ≤ s.pos := List.drop_eq_nil_iff.mp hrest
    have hlen : s.len ≤ 0 := by
      rw [hat]
      omega
    refine ⟨s,?_,rfl,rfl⟩
    cases fuel <;> rw [optLoop,if_pos hlen]
  | eol rest =>
    intro s fuel hrest hat hfuel
    obtain ⟨hop,hin,-⟩ := optArea_drop beyond hrest
    obtain ⟨fuel,rfl⟩ := Nat.exists_eq_add_of_le' (show 1 ≤ fuel by simp at hfuel; omega)
    have hlen : ¬s.len ≤ 0 := by
      rw [hat]
      omega
    rw [optLoop,if_neg hlen,optStep_eol hop]
    exact ⟨_,rfl,rfl,rfl⟩
  | nop _ ih =>
    intro s fuel hrest hat hfuel
    obtain ⟨hop,hin,hnext⟩ := optArea_drop beyond hrest
    obtain ⟨fuel,rfl⟩ := Nat.exists_eq_add_of_le' (show 1 ≤ fuel by simp at hfuel; omega)
    have hlen : ¬s.len ≤ 0 := by
      rw [hat]
      omega
    rw [optLoop,if_neg hlen,optStep_nop hop]
    exact ih hnext (OptScan.At.add hat rfl rfl) (by simpa using hfuel)
  | @mss rest o hi lo _ ih =>
    intro s fuel hrest hat hfuel
    simp only [List.length_cons] at hfuel
    obtain ⟨fuel,rfl⟩ := Nat.exists_eq_add_of_le' (show 1 ≤ fuel by omega)
    obtain ⟨-,-,h₁⟩ := optArea_drop beyond hrest
    obtain ⟨-,-,h₂⟩ := optArea_drop beyond h₁
    obtain ⟨hhi,-,h₃⟩ := optArea_drop beyond h₂
    obtain ⟨hlo,-,hdrop⟩ := optArea_drop beyond h₃
    rw [optLoop_sized hrest hat (by decide),optValue,if_pos ⟨rfl,rfl⟩]
    obtain ⟨s',hs',hm,hw⟩ := ih (s:={ s with
        pos := s.pos + tcpOlenMss.toNat
        len := s.len - tcpOlenMss.toNat
        mss := some (hi.toNat*256 + lo.toNat)
        reads := (s.pos+3)::(s.pos+2)::(s.pos+1)::s.pos::s.reads }) hdrop
      (OptScan.At.add hat rfl rfl) (show rest.length ≤ fuel by omega)
    refine ⟨s',?_,?_,hw⟩
    · rw [← hs']
      simp only [hhi,hlo]
    · rw [hm,Option.or_assoc]
      rfl
  | @wscale rest o w hw _ ih =>
    intro s fuel hrest hat hfuel
    simp only [List.length_cons] at hfuel
    obtain ⟨fuel,rfl⟩ := Nat.exists_eq_add_of_le' (show 1 ≤ fuel by omega)
    obtain ⟨-,-,h₁⟩ := optArea_drop beyond hrest
    obtain ⟨-,-,h₂⟩ := optArea_drop beyond h₁
    obtain ⟨hbyte,-,hdrop⟩ := optArea_drop beyond h₂
    rw [optLoop_sized hrest hat (by decide),optValue,if_neg (by decide),if_pos ⟨rfl,rfl⟩]
    obtain ⟨s',hs',hm,hv⟩ := ih (s:={ s with
        pos := s.pos + tcpOlenWscale.toNat
        len := s.len - tcpOlenWscale.toNat
        wscale := some w.toNat
        reads := (s.pos+2)::(s.pos+1)::s.pos::s.reads }) hdrop
      (OptScan.At.add hat rfl rfl) (show rest.length ≤ fuel by omega)
    refine ⟨s',?_,hm,?_⟩
    · rw [← hs']
      simp only [hbyte,Nat.min_eq_left hw]
    · rw [hv,Option.or_assoc]
      rfl
  | @other body rest o opcode opsize hcode hsize hmss hwscale _ ih =>
    intro s fuel hrest hat hfuel
    simp only [List.length_cons,List.length_append] at hfuel
    obtain ⟨fuel,rfl⟩ := Nat.exists_eq_add_of_le' (show 1 ≤ fuel by omega)
    have hdrop : bytes.drop (s.pos + opsize.toNat) = rest := by
      rw [← List.drop_drop,hrest,hsize]
      simp
    rw [optLoop_sized hrest hat hcode,optValue,if_neg hmss,if_neg hwscale]
    exact ih hdrop (OptScan.At.add hat rfl rfl) (by omega)

theorem scanOptions_offers (beyond : ℕ → UInt8) (h : Offers bytes o) :
    ∃ s, scanOptions (optArea bytes beyond) bytes.length = some s ∧ s.mss = o.mss ∧
      s.wscale = o.wscale := by
  obtain ⟨s,hs,hm,hw⟩ : ∃ s, scanOptions (optArea bytes beyond) bytes.length = some s ∧
      s.mss = o.mss.or none ∧ s.wscale = o.wscale.or none :=
    optLoop_offers h rfl (by simp [OptScan.At]) (Nat.le_refl _)
  exact ⟨s,hs,by simpa using hm,by simpa using hw⟩

theorem Offers.unique {o' : Offer} (h : Offers bytes o) (h' : Offers bytes o') : o = o' := by
  obtain ⟨s,hs,hmss,hwscale⟩ := scanOptions_offers (fun _ => 0) h
  obtain ⟨s',hs',hmss',hwscale'⟩ := scanOptions_offers (fun _ => 0) h'
  rw [hs] at hs'
  obtain rfl := Option.some.inj hs'
  cases o
  cases o'
  simp_all

theorem Offers.wscale_le (h : Offers bytes o) : ∀ w ∈ o.wscale, w ≤ 14 := by
  induction h with
  | nil => simp
  | eol => simp
  | nop _ ih => exact ih
  | mss _ _ _ ih => exact ih
  | @wscale _ o w hw _ ih =>
    intro w' hw'
    rcases Option.or_eq_some_iff.mp hw' with hlater | ⟨-,hself⟩
    · exact ih w' hlater
    · rw [← Option.some.inj hself]
      exact hw
  | other _ _ _ _ _ ih => exact ih

theorem optArea_take (n : ℕ) :
    optArea (bytes.take n) (optArea bytes beyond) = optArea bytes beyond := by
  funext i
  rw [optArea,List.getElem?_take]
  split
  · rw [optArea]
    cases bytes[i]? <;> rfl
  · rfl

end Offers

end Vessel
