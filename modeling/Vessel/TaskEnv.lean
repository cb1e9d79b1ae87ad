import Vessel.Packed

/-! The arguments and the environment of a task (`base/env.h`).  Strings are their bytes before the
terminator. -/
namespace Vessel
namespace TaskEnv

open Packed List

abbrev Str := List UInt8

/-- The blocks that a call has allocated for what it returns: the copies and their pointers, and
the sizes.  The last of the slots is for the `NULL`. -/
structure Result where
  block : Block UInt8
  size : ℕ
  slots : ℕ

/-- As a `size_t`. -/
def sizeT (x : ℤ) : ℕ := (x%2^64).toNat

/-! ### Arguments -/

/-- `gen_new_argv`.  The first loop does not advance `pos`. -/
def genNewArgv (argv : List Str) : Result where
  block := pack 0 (fun _ => 0) argv
  size := argv.foldl (fun total _ => sizeT (total+(argv.headD []).length+1)) 0
  slots := sizeT (((argv.length+1 : ℕ) : ℤ).bmod (2^32))

theorem size_genNewArgv (argv : List Str) :
    (genNewArgv argv).size = argv.length*((argv.headD []).length+1)%2^64 := by
  have hfold : ∀ (l : List Str) (n t : ℕ),
      l.foldl (fun total _ => sizeT (total+n+1)) (t%2^64) = (t+l.length*(n+1))%2^64 := by
    intro l n
    induction l with
    | nil => simp
    | cons s l ih =>
      intro t
      have hstep : sizeT ((t%2^64 : ℕ)+n+1) = (t+n+1)%2^64 := by
        rw [sizeT]
        omega
      rw [foldl_cons,hstep,ih,length_cons,Nat.succ_mul]
      congr 1
      omega
  simpa [genNewArgv] using hfold argv (argv.headD []).length 0

/-- The pointers are to copies of the arguments.  The copies are inside of their block just if the
arguments need no more than as many arguments of the first one's length, and there is a slot for each
pointer and the `NULL` just if `argc+1` is an `int`. -/
theorem argv_copied_iff (argv : List Str) :
    List.Forall₂ ((genNewArgv argv).block.Holds 0) (genNewArgv argv).block.ptrs argv ∧
    (argv.length+1 < 2^31 →
      (genNewArgv argv).block.ptrs.length+1 = (genNewArgv argv).slots) ∧
    ((genNewArgv argv).block.Inside (genNewArgv argv).size ↔
      size argv ≤ argv.length*((argv.headD []).length+1)%2^64) ∧
    (argv.length < 2^31 → ((genNewArgv argv).block.Inside (genNewArgv argv).size ∧
        (genNewArgv argv).block.ptrs.length+1 = (genNewArgv argv).slots ↔
      size argv ≤ argv.length*((argv.headD []).length+1)%2^64 ∧ argv.length+1 < 2^31)) := by
  have hholds := holds_pack (0 : UInt8) (fun _ => 0) argv
  have hlen : (genNewArgv argv).block.ptrs.length = argv.length := hholds.length_eq
  have hslots : argv.length < 2^31 →
      (argv.length+1 = (genNewArgv argv).slots ↔ argv.length+1 < 2^31) := by
    intro hargc
    rw [genNewArgv,Int.bmod_def]
    dsimp only
    rw [sizeT]
    omega
  have hinside : (genNewArgv argv).block.Inside (genNewArgv argv).size ↔
      size argv ≤ argv.length*((argv.headD []).length+1)%2^64 := by
    rw [← size_genNewArgv]
    exact inside_pack
  rw [hlen]
  exact ⟨hholds.imp fun _ _ h => h.1,fun hargc => (hslots (by omega)).mpr hargc,hinside,
    fun hargc => and_congr hinside (hslots hargc)⟩

/-- `sh -c true` in place of a program with a longer name. -/
theorem argv_overflows :
    (genNewArgv [[115,104],[45,99],[116,114,117,101]]).size = 9 ∧
    ¬(genNewArgv [[115,104],[45,99],[116,114,117,101]]).block.Inside 9 := by
  refine ⟨by decide,?_⟩
  simp [Block.Inside,genNewArgv,pack,Block.put]

/-! ### The environment -/

/-- `match_key`: whether `key_item` has the key of `item`. -/
def matchKey : Str → Str → Bool
  | _,[] => false
  | item,k::keyItem =>
    if k = 61 then item.head? = some 61
    else match item with
      | [] => false
      | c::item => k = c && matchKey item keyItem

/-- An element of `keys`, with that of `key_sizes`: the rest of the settings from there on. -/
structure Key where
  ptr : Str
  size : ℤ
deriving DecidableEq

def Key.bytes (k : Key) : Str := k.ptr.take (sizeT k.size)

/-- The loop over the settings: the keys that are left to find, `prepos`, the distance from it, and
what there is from `cpos` on. -/
def parseKeys : ℕ → Str → ℕ → Str → List Key
  | 0,_,_,_ => []
  | _+1,ptr,len,[] => [⟨ptr,(len : ℤ).bmod (2^32)⟩]
  | n+1,ptr,len,c::rest =>
    if c = 10 then ⟨ptr,(len : ℤ).bmod (2^32)⟩::parseKeys n rest 0 rest
    else parseKeys (n+1) ptr (len+1) rest

def inKeys (item : Str) (keys : List Key) : Option Key := keys.find? fun k => matchKey item k.ptr

/-- The keys in `matched` are those with `key_matcheds` set. -/
structure Totals where
  total : ℕ
  newNum : ℕ
  matched : List Key

def Totals.entry (keys : List Key) (t : Totals) (e : Str) : Totals :=
  match inKeys e keys with
  | some k => ⟨sizeT (t.total+(k.size+1).bmod (2^32)),t.newNum+1,k::t.matched⟩
  | none => ⟨sizeT (t.total+e.length+1),t.newNum+1,t.matched⟩

def Totals.setting (t : Totals) (k : Key) : Totals :=
  if k ∈ t.matched then t else ⟨sizeT (t.total+(k.size+1).bmod (2^32)),t.newNum+1,t.matched⟩

/-- The loops that measure. -/
def totals (env : List Str) (keys : List Key) : Totals :=
  keys.foldl .setting (env.foldl (.entry keys) ⟨0,0,[]⟩)

/-- The loops that copy. -/
def copies (env : List Str) (keys : List Key) (matched : List Key) : List Str :=
  env.map (fun e => ((inKeys e keys).map Key.bytes).getD e)++
    (keys.filter fun k => k ∉ matched).map Key.bytes

def genNewEnv (env : List Str) (settings : Str) (keysNum : ℕ) : Result :=
  let keys := parseKeys keysNum settings 0 settings
  let t := totals env keys
  ⟨pack 0 (fun _ => 0) (copies env keys t.matched),t.total,t.newNum+1⟩

/-! ### What it should be -/

/-- What is in front of the first `=`. -/
def keyOf : Str → Option Str
  | [] => none
  | c::s => if c = 61 then some [] else (keyOf s).map (c::·)

def newEnv (env lines : List Str) : List Str :=
  env.map (fun e => (lines.find? fun l => keyOf e = keyOf l).getD e)++
    lines.filter fun l => ∀ e ∈ env, keyOf e ≠ keyOf l

variable {env lines : List Str} {keys : List Key} {l t e : Str}

theorem keyOf_ne_none (hl : 61 ∈ l) : keyOf l ≠ none := by
  induction l with
  | nil => simp at hl
  | cons c l ih =>
    by_cases hc : c = 61
    · simp [keyOf,hc]
    · have hl : 61 ∈ l := by simpa [Ne.symm hc] using hl
      simpa [keyOf,hc] using ih hl

theorem matchKey_append (hl : 61 ∈ l) : matchKey e (l++t) = decide (keyOf e = keyOf l) := by
  induction l generalizing e with
  | nil => simp at hl
  | cons c l ih =>
    by_cases hc : c = 61
    · subst hc
      cases e with
      | nil => simp [matchKey,keyOf]
      | cons d e => by_cases hd : d = 61 <;> simp [matchKey,keyOf,hd]
    · have hl : 61 ∈ l := by simpa [Ne.symm hc] using hl
      obtain ⟨k,hk⟩ := Option.ne_none_iff_exists'.mp (keyOf_ne_none hl)
      cases e with
      | nil => simp [matchKey,keyOf,hc,hk]
      | cons d e =>
        by_cases hd : d = 61
        · simp [matchKey,keyOf,hc,hd,hk]
        · cases he : keyOf e <;> simp [matchKey,keyOf,hc,hd,hk,he,ih hl]
          grind

/-! ### The settings -/

/-- The keys that the lines give, with `tail` behind the last of them. -/
def keysOf (tail : Str) : List Str → List Key
  | [] => []
  | l::lines =>
    ⟨List.intercalate [10] (l::lines)++tail,(l.length : ℤ).bmod (2^32)⟩::keysOf tail lines

theorem parseKeys_last {n len : ℕ} {ptr : Str} (hl : 10 ∉ l) :
    parseKeys (n+1) ptr len l = [⟨ptr,((len+l.length : ℕ) : ℤ).bmod (2^32)⟩] := by
  induction l generalizing len with
  | nil => rfl
  | cons c l ih =>
    simp only [mem_cons,not_or] at hl
    rw [parseKeys,if_neg (Ne.symm hl.1),ih hl.2,length_cons,Nat.add_right_comm len,
      Nat.add_assoc]

theorem parseKeys_line {n len : ℕ} {ptr : Str} (hl : 10 ∉ l) :
    parseKeys (n+1) ptr len (l++10::t) =
      ⟨ptr,((len+l.length : ℕ) : ℤ).bmod (2^32)⟩::parseKeys n t 0 t := by
  induction l generalizing len with
  | nil => rfl
  | cons c l ih =>
    simp only [mem_cons,not_or] at hl
    rw [cons_append,parseKeys,if_neg (Ne.symm hl.1),ih hl.2,length_cons,
      Nat.add_right_comm len,Nat.add_assoc]

theorem parseKeys_intercalate {tail : Str} (htail : ∀ c ∈ tail.head?, c = 10)
    (hline : ∀ l ∈ lines, 10 ∉ l) :
    parseKeys lines.length (List.intercalate [10] lines++tail) 0
      (List.intercalate [10] lines++tail) = keysOf tail lines := by
  induction lines with
  | nil => simp [parseKeys,keysOf]
  | cons l lines ih =>
    have hl := hline l mem_cons_self
    cases lines with
    | nil =>
      rw [keysOf,intercalate_singleton,length_singleton,keysOf]
      cases tail with
      | nil => rw [append_nil,parseKeys_last hl,Nat.zero_add]
      | cons c t =>
        obtain rfl : c = 10 := htail c rfl
        rw [parseKeys_line hl,Nat.zero_add,parseKeys]
    | cons l' lines =>
      specialize ih fun m hm => hline m (mem_cons_of_mem l hm)
      rw [keysOf,intercalate_cons_cons,append_assoc,append_assoc,singleton_append,
        length_cons,parseKeys_line hl,ih,Nat.zero_add]

theorem intercalate_starts (l : Str) (lines : List Str) :
    ∃ t, List.intercalate [10] (l::lines) = l++t := by
  cases lines with
  | nil => exact ⟨[],by simp⟩
  | cons l' lines => exact ⟨_,by rw [intercalate_cons_cons,append_assoc]⟩

/-- The lines are short enough for their lengths to be kept as an `int`. -/
def Short (lines : List Str) : Prop := ∀ l ∈ lines, l.length+1 < 2^31

/-- What the keys are for: their lines, with their sizes, and the entries that they replace. -/
structure Reads (keys : List Key) (lines : List Str) : Prop where
  bytes : keys.map Key.bytes = lines
  size : ∀ k ∈ keys, (k.size+1).bmod (2^32) = k.bytes.length+1
  same : ∀ k ∈ keys, ∀ e, matchKey e k.ptr = decide (keyOf e = keyOf k.bytes)

theorem reads_keysOf (tail : Str) (hshort : Short lines) (heq : ∀ l ∈ lines, 61 ∈ l) :
    Reads (keysOf tail lines) lines := by
  induction lines with
  | nil => exact ⟨rfl,by simp [keysOf],by simp [keysOf]⟩
  | cons l lines ih =>
    have hl := hshort l mem_cons_self
    specialize ih (fun m hm => hshort m (mem_cons_of_mem l hm))
      fun m hm => heq m (mem_cons_of_mem l hm)
    obtain ⟨t,ht⟩ := intercalate_starts l lines
    have hsize : (l.length : ℤ).bmod (2^32) = l.length := by
      rw [Int.bmod_def]
      omega
    have hbytes : (⟨l++(t++tail),l.length⟩ : Key).bytes = l := by
      have hsizeT : sizeT l.length = l.length := by
        rw [sizeT]
        omega
      rw [Key.bytes,hsizeT,take_left]
    rw [keysOf,hsize,ht,append_assoc]
    refine ⟨?_,?_,?_⟩
    · rw [map_cons,hbytes,ih.bytes]
    · refine forall_mem_cons.mpr ⟨?_,ih.size⟩
      rw [hbytes,Int.bmod_def]
      dsimp only
      omega
    · refine forall_mem_cons.mpr ⟨fun e => ?_,ih.same⟩
      rw [hbytes,matchKey_append (heq l mem_cons_self)]

/-! ### The loops -/

theorem Reads.inKeys_bytes (h : Reads keys lines) :
    (inKeys e keys).map Key.bytes = lines.find? fun l => keyOf e = keyOf l := by
  rw [← h.bytes,find?_map,inKeys,← head?_filter,← head?_filter]
  rw [filter_congr fun k hk => by rw [h.same k hk e]]
  rfl

/-- With distinct keys, the flag of a key is set just if some entry has it. -/
theorem Reads.inKeys_eq_some (h : Reads keys lines) (hkeys : (lines.map keyOf).Nodup) {k : Key}
    (hk : k ∈ keys) : inKeys e keys = some k ↔ keyOf e = keyOf k.bytes := by
  constructor
  · intro hfind
    have hmatch := find?_some hfind
    rw [h.same k hk] at hmatch
    exact of_decide_eq_true hmatch
  · intro hsame
    have hsome : (inKeys e keys).isSome := by
      rw [inKeys,find?_isSome]
      exact ⟨k,hk,by rw [h.same k hk,decide_eq_true hsame]⟩
    obtain ⟨k',hfind⟩ := Option.isSome_iff_exists.mp hsome
    have hk' := mem_of_find?_eq_some hfind
    have hmatch := find?_some hfind
    rw [h.same k' hk'] at hmatch
    have hother := of_decide_eq_true hmatch
    rw [← h.bytes,map_map] at hkeys
    rw [hfind,inj_on_of_nodup_map hkeys hk' hk (hother.symm.trans hsame)]

theorem matched_entries (env : List Str) (t : Totals) (k : Key) :
    k ∈ (env.foldl (.entry keys) t).matched ↔
      k ∈ t.matched ∨ ∃ e ∈ env, inKeys e keys = some k := by
  induction env generalizing t with
  | nil => simp
  | cons e env ih =>
    rw [foldl_cons,ih,Totals.entry]
    cases hin : inKeys e keys with
    | none => simp [hin]
    | some k' => simp only [mem_cons,exists_eq_or_imp,hin,Option.some.injEq]; grind

theorem matched_settings (ks : List Key) (t : Totals) : (ks.foldl .setting t).matched = t.matched := by
  induction ks generalizing t with
  | nil => rfl
  | cons k ks ih =>
    rw [foldl_cons,ih,Totals.setting]
    split_ifs <;> rfl

theorem matched_totals (k : Key) :
    k ∈ (totals env keys).matched ↔ ∃ e ∈ env, inKeys e keys = some k := by
  rw [totals,matched_settings,matched_entries]
  simp

/-- The copies are what the environment should be. -/
theorem Reads.copies_eq (h : Reads keys lines) (env : List Str) (hkeys : (lines.map keyOf).Nodup) :
    copies env keys (totals env keys).matched = newEnv env lines := by
  rw [copies,newEnv]
  congr 1
  · exact map_congr_left fun e _ => by rw [h.inKeys_bytes]
  · rw [← h.bytes,filter_map]
    congr 1
    refine filter_congr fun k hk => ?_
    rw [Function.comp_apply,decide_eq_decide,matched_totals]
    simp only [h.inKeys_eq_some hkeys hk]
    grind

theorem sizeT_add {a n : ℕ} {x : ℤ} (hx : x = (a%2^64 : ℕ)+n) : sizeT x = (a+n)%2^64 := by
  rw [sizeT]
  omega

theorem Reads.total_entries (h : Reads keys lines) (env : List Str) {t : Totals} {a : ℕ}
    (ha : t.total = a%2^64) :
    (env.foldl (.entry keys) t).total =
      (a+Packed.size (env.map fun e => ((inKeys e keys).map Key.bytes).getD e))%2^64 ∧
    (env.foldl (.entry keys) t).newNum = t.newNum+env.length := by
  induction env generalizing t a with
  | nil => simp [Packed.size,ha]
  | cons e env ih =>
    have hstep : (t.entry keys e).total =
        (a+((((inKeys e keys).map Key.bytes).getD e).length+1))%2^64 ∧
        (t.entry keys e).newNum = t.newNum+1 := by
      rw [Totals.entry]
      cases hin : inKeys e keys with
      | none =>
        have hsum : sizeT (t.total+e.length+1) = (a+(e.length+1))%2^64 :=
          sizeT_add (by rw [ha]; omega)
        exact ⟨hsum,rfl⟩
      | some k =>
        have hk := h.size k (mem_of_find?_eq_some hin)
        exact ⟨sizeT_add (by rw [hk]; simp [ha]),rfl⟩
    obtain ⟨htotal,hnum⟩ := ih hstep.1
    rw [foldl_cons,htotal,hnum,hstep.2]
    simp only [Packed.size,map_cons,sum_cons,length_cons]
    omega

theorem Reads.total_settings (h : Reads keys lines) (ks : List Key) {t : Totals} {a : ℕ}
    (hks : ∀ k ∈ ks, k ∈ keys) (ha : t.total = a%2^64) :
    (ks.foldl .setting t).total =
      (a+Packed.size ((ks.filter fun k => k ∉ t.matched).map Key.bytes))%2^64 ∧
    (ks.foldl .setting t).newNum = t.newNum+(ks.filter fun k => k ∉ t.matched).length := by
  induction ks generalizing t a with
  | nil => simp [Packed.size,ha]
  | cons k ks ih =>
    obtain ⟨hk,hks⟩ := forall_mem_cons.mp hks
    by_cases hin : k ∈ t.matched
    · rw [foldl_cons,Totals.setting,if_pos hin,filter_cons_of_neg (by simp [hin])]
      exact ih hks ha
    · rw [foldl_cons,Totals.setting,if_neg hin,filter_cons_of_pos (by simp [hin])]
      have hsum : sizeT (t.total+(k.size+1).bmod (2^32)) = (a+(k.bytes.length+1))%2^64 :=
        sizeT_add (by rw [h.size k hk]; simp [ha])
      obtain ⟨htotal,hnum⟩ := ih (t:=⟨sizeT (t.total+(k.size+1).bmod (2^32)),t.newNum+1,
        t.matched⟩) hks hsum
      rw [htotal,hnum]
      simp only [Packed.size,map_cons,sum_cons,length_cons]
      omega

/-- What is added up is what is copied. -/
theorem Reads.totals_eq (h : Reads keys lines) (env : List Str) :
    (totals env keys).total = Packed.size (copies env keys (totals env keys).matched)%2^64 ∧
    (totals env keys).newNum = (copies env keys (totals env keys).matched).length := by
  obtain ⟨htotal,hnum⟩ := h.total_entries env (t:=⟨0,0,[]⟩) (a:=0) rfl
  obtain ⟨htotal',hnum'⟩ := h.total_settings keys (fun _ hk => hk) htotal
  rw [copies,totals,matched_settings,htotal',hnum',hnum]
  simp [Packed.size]

/-- The vector is what it should be, and what is written is inside of the two blocks.  The settings
may go on with a newline behind the last line, as the default ones do. -/
theorem env_overridden (env lines : List Str) (tail : Str)
    (hline : ∀ l ∈ lines, 61 ∈ l ∧ 10 ∉ l) (hkeys : (lines.map keyOf).Nodup)
    (htail : ∀ c ∈ tail.head?, c = 10) (hshort : Short lines)
    (htotal : Packed.size (newEnv env lines) < 2^64) (hnum : (newEnv env lines).length < 2^31) :
    let r := genNewEnv env (List.intercalate [10] lines++tail) lines.length
    List.Forall₂ (r.block.Holds 0) r.block.ptrs (newEnv env lines) ∧ r.block.Inside r.size ∧
      r.block.ptrs.length+1 = r.slots ∧ r.slots ≤ 2^31 := by
  have hreads : Reads (keysOf tail lines) lines := reads_keysOf tail hshort fun l hl => (hline l hl).1
  have hparse := parseKeys_intercalate htail fun l hl => (hline l hl).2
  have hcopies := hreads.copies_eq env hkeys
  obtain ⟨hsum,hslots⟩ := hreads.totals_eq env
  have hholds := holds_pack (0 : UInt8) (fun _ => 0) (newEnv env lines)
  rw [hcopies] at hsum hslots
  simp only [genNewEnv,hparse,hcopies,hsum,hslots]
  refine ⟨hholds.imp fun _ _ h => h.1,?_,?_,hnum⟩
  · exact inside_pack.mpr (Nat.le_of_eq (Nat.mod_eq_of_lt htotal).symm)
  · rw [hholds.length_eq]

/-- One entry is kept, one is replaced and one setting is new; the settings end with a newline. -/
theorem env_overridden_newline :
    Packed.size (newEnv [[65,61,49],[66,61]] [[66,61,50],[67,61]]) = 11 ∧
    let r := genNewEnv [[65,61,49],[66,61]] (List.intercalate [10] [[66,61,50],[67,61]]++[10]) 2
    List.Forall₂ (r.block.Holds 0) r.block.ptrs [[65,61,49],[66,61,50],[67,61]] ∧
      r.block.Inside r.size ∧ r.block.ptrs.length+1 = r.slots ∧ r.slots ≤ 2^31 :=
  ⟨by decide,env_overridden [[65,61,49],[66,61]] [[66,61,50],[67,61]] [10] (by decide) (by decide)
    (by simp) (by unfold Short; decide) (by decide) (by decide)⟩

end TaskEnv
end Vessel
