import Mathlib.Data.List.DropRight
import Mathlib.Data.Nat.Digits.Lemmas
import ConeOS.Fat32.Delete

namespace ConeOS.Fat32

open ConeOS.Library List
open ConeOS.Vfs (dot)

def tilde : UInt8 := 126
def underscore : UInt8 := 95

section Calls

/-- A loop over the slots up to the end marker; a sector that cannot be read counts as a hit. -/
def aliasStep (short : ByteMemory) : SlotBody Unit Bool := fun _ slot _ =>
  if slot 0=0 then .stop false
  else if slot 0=0xE5 ∨ slot 11=0x0F then .next ()
  else if sameShort slot short then .stop true
  else .next ()

def shortAliasExists (v : Volume) (directory : Nat) (short : ByteMemory) (d : Disk) : Bool :=
  scanDirectory v d (aliasStep short) true (fun _ => false) directory ()

/-- An upper-case letter or a digit. -/
def aliasChar (c : UInt8) : Bool :=
  decide (65≤c.toNat ∧ c.toNat≤90 ∨ 48≤c.toNat ∧ c.toNat≤57)

/-- The first characters of a text that an alias can show. -/
def aliasChars (limit : Nat) (text : Name) : Name := ((text.map upper).filter aliasChar).take limit

/-- The name up to its last dot. -/
def beforeDot (name : Name) : Name :=
  if dot ∈ name then (name.rdropWhile (· ≠ dot)).dropLast else name

/-- The name from its last dot on. -/
def afterDot (name : Name) : Name := if dot ∈ name then name.rtakeWhile (· ≠ dot) else []

def aliasBase (name : Name) : Name :=
  let base := aliasChars 8 (beforeDot name)
  if base=[] then [underscore] else base

/-- The digits of a number, the last one first, for an array of `size` places. -/
def digitsLoop : Nat → Nat → Name
  | 0, _ => []
  | size+1, value =>
    UInt8.ofNat (48+value%10) :: if value/10=0 then [] else digitsLoop size (value/10)

/-- Eleven bytes: the base and the extension, each filled up with spaces. -/
def fieldBytes (base extension : Name) : ByteMemory :=
  store 8 extension (store 0 base (fun _ => space))

/-- The alias with a number. -/
def numberedAlias (name : Name) (number : Nat) : ByteMemory :=
  let digits := digitsLoop 7 number
  fieldBytes ((aliasBase name).take (7-digits.length) ++ tilde :: digits.reverse)
    (aliasChars 3 (afterDot name))

/-- The loop over the numbers of an alias. -/
def tryNumbers (v : Volume) (d : Disk) (directory : Nat) (name : Name) :
    Nat → Nat → Option ByteMemory
  | 0, _ => none
  | count+1, number =>
    if shortAliasExists v directory (numberedAlias name number) d then
      tryNumbers v d directory name count (number+1)
    else some (numberedAlias name number)

/-- The alias of a name in a directory, and whether the name needs a long one. -/
def makeShortAlias (v : Volume) (directory : Nat) (name : Name) (d : Disk) :
    Option (ByteMemory × Bool) :=
  match shortName name with
  | some short => some (short, !canonicalShortName name short)
  | none => (tryNumbers v d directory name 999999 1).map (fun short => (short,true))

end Calls

section Shape

variable {width target target' : Nat} {text name : Name} {result result' : ByteMemory}
  {extension : Bool}

/-- The eleven bytes of a short name. -/
def shortBytes (short : ByteMemory) : Name := load 0 11 short

def padded (width : Nat) (text : Name) : Name := text ++ List.replicate (width-text.length) space

/-- The name in upper case, split at its dot. -/
def UpperForm (name short : Name) : Prop :=
  ∃ base extension, base≠[] ∧ base.length≤8 ∧ extension.length≤3 ∧ dot ∉ base ∧
    dot ∉ extension ∧
    (name=base ∧ extension=[] ∨ name=base ++ dot :: extension ∧ extension≠[]) ∧
    short=padded 8 (base.map upper) ++ padded 3 (extension.map upper)

/-- A number in decimal, without leading zeros. -/
def decimal (number : Nat) : Name :=
  (Nat.digits 10 number).reverse.map (fun k => UInt8.ofNat (48+k))

/-- A base of letters and digits or an underscore, a tilde and a number in the first eight bytes,
and an extension of letters and digits. -/
def NumberedForm (short : Name) : Prop :=
  ∃ base number extension, base.length≤6 ∧
    ((∀ c ∈ base, aliasChar c=true) ∨ base=[underscore]) ∧ 1≤number ∧ number<1000000 ∧
    (base ++ tilde :: decimal number).length≤8 ∧ extension.length≤3 ∧
    (∀ c ∈ extension, aliasChar c=true) ∧
    short=padded 8 (base ++ tilde :: decimal number) ++ padded 3 extension

theorem padded_getElem? {i : Nat} (hi : i<width) (h : text.length≤width) :
    (padded width text)[i]? = some (text.getD i space) := by
  rw [padded,List.getElem?_append]
  split_ifs with hlt
  · rw [List.getElem?_eq_getElem hlt,getD_eq_getElem _ _ hlt]
  · rw [List.getElem?_replicate,if_pos (by omega),getD_eq_default _ _ (by omega)]

@[simp] theorem padded_length (h : text.length≤width) :
    (padded width text).length=width := by
  rw [padded,length_append,length_replicate]
  omega

theorem shortBytes_fieldBytes {base extension : Name} (hbase : base.length≤8)
    (hextension : extension.length≤3) :
    shortBytes (fieldBytes base extension)=padded 8 base ++ padded 3 extension := by
  apply ext_getElem?
  intro i
  rw [shortBytes,load,List.getElem?_map,List.getElem?_append,padded_length hbase]
  by_cases hi : i<11
  · rw [List.getElem?_range hi,Option.map_some,Nat.zero_add,fieldBytes]
    split_ifs with hlow
    · rw [padded_getElem? hlow hbase,store_apply_of_lt hlow,store]
      split_ifs with hin
      · rw [Nat.sub_zero,getD_eq_getElem _ _ (by omega),getD_eq_getElem _ _ (by omega)]
      · rw [getD_eq_default _ _ (by omega)]
    rw [padded_getElem? (by omega) hextension,store]
    split_ifs with hin
    · rw [getD_eq_getElem _ _ (by omega),getD_eq_getElem _ _ (by omega)]
    · rw [store_apply_of_ge (by omega),getD_eq_default _ _ (by omega)]
  · rw [List.getElem?_eq_none (by rw [length_range]; omega),if_neg (by omega),
      List.getElem?_eq_none (by rw [padded_length hextension]; omega)]
    rfl

/-- The loop of `short_name` behind the dot. -/
theorem shortNameLoop_extension (ht : target≤11)
    (h : shortNameLoop name result target true=some (result',target',extension)) :
    dot ∉ name ∧ extension=true ∧ target'=target+name.length ∧ target'≤11 ∧
      result'=store target (name.map upper) result := by
  induction name generalizing result target with
  | nil =>
    cases h
    exact ⟨by simp,rfl,rfl,ht,by simp⟩
  | cons c name ih =>
    rw [shortNameLoop] at h
    by_cases hdot : c=dot
    · rw [if_pos hdot,if_pos (.inl rfl)] at h
      cases h
    rw [if_neg hdot] at h
    by_cases hfull : true ∧ 11≤target ∨ ¬ true ∧ 8≤target
    · rw [if_pos (by simpa using hfull)] at h
      cases h
    rw [if_neg (by simpa using hfull)] at h
    split_ifs at h
    obtain ⟨hname,hext,htarget,hle,hresult⟩ := ih (by simp at hfull; omega) h
    refine ⟨?_,hext,?_,hle,?_⟩
    · rw [mem_cons,not_or]
      exact ⟨Ne.symm hdot,hname⟩
    · rw [htarget,length_cons]
      omega
    · rw [hresult,map_cons,store_cons]

/-- The loop of `short_name` before the dot: there is none, or it goes on behind it. -/
theorem shortNameLoop_base (ht : target≤8)
    (h : shortNameLoop name result target false=some (result',target',extension)) :
    (dot ∉ name ∧ extension=false ∧ target+name.length≤8 ∧
      result'=store target (name.map upper) result) ∨
    ∃ base rest, name=base ++ dot :: rest ∧ dot ∉ base ∧ dot ∉ rest ∧ extension=true ∧
      target+base.length≠0 ∧ target+base.length≤8 ∧ target'=8+rest.length ∧
      target'≤11 ∧ result'=store 8 (rest.map upper) (store target (base.map upper) result) := by
  induction name generalizing result target with
  | nil =>
    cases h
    exact .inl ⟨by simp,rfl,by simpa using ht,by simp⟩
  | cons c name ih =>
    rw [shortNameLoop] at h
    by_cases hdot : c=dot
    · rw [if_pos hdot] at h
      by_cases hzero : target=0
      · rw [if_pos (.inr hzero)] at h
        cases h
      rw [if_neg (by simp [hzero])] at h
      obtain ⟨hname,hext,htarget,hle,hresult⟩ := shortNameLoop_extension (by decide) h
      exact .inr ⟨[],name,by rw [hdot]; rfl,by simp,hname,hext,by simpa using hzero,
        by simpa using ht,htarget,hle,by simpa using hresult⟩
    rw [if_neg hdot] at h
    by_cases hfull : 8≤target
    · rw [if_pos (.inr ⟨by simp,hfull⟩)] at h
      cases h
    rw [if_neg (by simp [hfull])] at h
    split_ifs at h
    obtain ⟨hname,hext,hlen,hresult⟩ |
      ⟨base,rest,rfl,hbase,hrest,hext,hne,hlen,htarget,hle,hresult⟩ := ih (by omega) h
    · left
      refine ⟨?_,hext,by rw [length_cons]; omega,?_⟩
      · rw [mem_cons,not_or]
        exact ⟨Ne.symm hdot,hname⟩
      · rw [hresult,map_cons,store_cons]
    right
    refine ⟨c :: base,rest,rfl,?_,hrest,hext,by rw [length_cons]; omega,
      by rw [length_cons]; omega,htarget,hle,?_⟩
    · rw [mem_cons,not_or]
      exact ⟨Ne.symm hdot,hbase⟩
    · rw [hresult,map_cons,store_cons]

/-- `short_name` gives the upper-case form of the name. -/
theorem shortName_upperForm {short : ByteMemory} (h : shortName name=some short) :
    UpperForm name (shortBytes short) := by
  rw [shortName] at h
  by_cases hempty : name=[]
  · rw [if_pos hempty] at h
    cases h
  rw [if_neg hempty] at h
  cases hloop : shortNameLoop name (fun _ => space) 0 false with
  | none =>
    rw [hloop] at h
    cases h
  | some r =>
    obtain ⟨result,target,extension⟩ := r
    rw [hloop] at h
    dsimp only at h
    by_cases hbare : extension ∧ target=8
    · rw [if_pos hbare] at h
      cases h
    rw [if_neg hbare] at h
    cases h
    obtain ⟨hname,-,hlen,hresult⟩ |
      ⟨base,rest,rfl,hbase,hrest,hext,hne,hlen,htarget,hle,hresult⟩ :=
      shortNameLoop_base (by decide) hloop
    · rw [Nat.zero_add] at hlen
      refine ⟨name,[],hempty,hlen,by simp,hname,by simp,.inl ⟨rfl,rfl⟩,?_⟩
      rw [hresult,← shortBytes_fieldBytes (by rwa [length_map]) (by simp),fieldBytes,
        map_nil,store_nil]
    rw [Nat.zero_add] at hne hlen
    have hnonempty : rest≠[] := by
      rintro rfl
      exact hbare ⟨hext,htarget⟩
    refine ⟨base,rest,fun h => hne (by rw [h]; rfl),hlen,by omega,hbase,hrest,
      .inr ⟨rfl,hnonempty⟩,?_⟩
    rw [hresult,← shortBytes_fieldBytes (by rwa [length_map])
      (by rw [length_map]; omega),fieldBytes]

theorem digitsLoop_eq {size value : Nat} (hpos : 0<value) (h : value<10 ^ size) :
    digitsLoop size value=(Nat.digits 10 value).map (fun k => UInt8.ofNat (48+k)) := by
  induction size generalizing value with
  | zero =>
    rw [Nat.pow_zero] at h
    omega
  | succ size ih =>
    rw [digitsLoop,Nat.digits_def' (by decide) hpos,map_cons]
    by_cases hlast : value/10=0
    · rw [if_pos hlast,hlast,Nat.digits_zero,map_nil]
    · rw [if_neg hlast,ih (Nat.pos_of_ne_zero hlast) (by rw [Nat.pow_succ] at h; omega)]

theorem aliasChars_spec (limit : Nat) (text : Name) :
    (aliasChars limit text).length≤limit ∧ ∀ c ∈ aliasChars limit text, aliasChar c=true := by
  rw [aliasChars]
  refine ⟨length_take_le _ _,fun c hc => ?_⟩
  exact of_mem_filter (mem_of_mem_take hc)

/-- Every numbered alias has its form. -/
theorem numberedAlias_form (name : Name) {number : Nat} (hpos : 1≤number)
    (hlimit : number<1000000) : NumberedForm (shortBytes (numberedAlias name number)) := by
  have hdigits : (digitsLoop 7 number).reverse=decimal number := by
    rw [digitsLoop_eq hpos (by omega),decimal,map_reverse]
  have hlength : (digitsLoop 7 number).length=(decimal number).length := by
    rw [← hdigits,length_reverse]
  have hlow : 1≤(decimal number).length := by
    rw [decimal,length_map,length_reverse,Nat.digits_def' (by decide) hpos,length_cons]
    omega
  have hhigh : (decimal number).length≤6 := by
    rw [decimal,length_map,length_reverse]
    exact (Nat.digits_length_le_iff (by decide) number).mpr hlimit
  have hextension := aliasChars_spec 3 (afterDot name)
  have hbase : ((aliasBase name).take (7-(decimal number).length) ++
      tilde :: decimal number).length≤8 := by
    rw [length_append,length_cons,length_take]
    omega
  refine ⟨(aliasBase name).take (7-(decimal number).length),number,aliasChars 3 (afterDot name),
    by rw [length_take]; omega,?_,hpos,hlimit,hbase,hextension.1,hextension.2,?_⟩
  · rw [aliasBase]
    split_ifs
    · right
      exact take_of_length_le (by rw [length_singleton]; omega)
    · left
      intro c hc
      exact (aliasChars_spec 8 (beforeDot name)).2 c (mem_of_mem_take hc)
  · rw [numberedAlias,hdigits,hlength,shortBytes_fieldBytes hbase hextension.1]

end Shape

section Choice

variable {v : Volume} {d : Disk} {directory : Nat} {name : Name} {short : ByteMemory}

theorem tryNumbers_some {count number : Nat}
    (h : tryNumbers v d directory name count number=some short) :
    shortAliasExists v directory short d=false ∧
      ∃ n, number≤n ∧ n<number+count ∧ short=numberedAlias name n := by
  induction count generalizing number with
  | zero => cases h
  | succ count ih =>
    rw [tryNumbers] at h
    split_ifs at h with hexists
    · obtain ⟨hfree,n,hle,hlt,heq⟩ := ih h
      exact ⟨hfree,n,by omega,by omega,heq⟩
    · cases h
      exact ⟨Bool.eq_false_iff.mpr hexists,number,Nat.le_refl _,by omega,rfl⟩

theorem makeShortAlias_some {long : Bool}
    (h : makeShortAlias v directory name d=some (short,long)) :
    shortName name=some short ∧ UpperForm name (shortBytes short) ∨
      shortAliasExists v directory short d=false ∧ NumberedForm (shortBytes short) := by
  rw [makeShortAlias] at h
  cases hshort : shortName name with
  | some direct =>
    rw [hshort] at h
    cases h
    exact .inl ⟨rfl,shortName_upperForm hshort⟩
  | none =>
    rw [hshort] at h
    obtain ⟨found,hfound,heq⟩ := Option.map_eq_some_iff.mp h
    cases heq
    obtain ⟨hfree,n,hle,hlt,rfl⟩ := tryNumbers_some hfound
    exact .inr ⟨hfree,numberedAlias_form name hle (by omega)⟩

end Choice

section Live

variable {v : Volume} {d : Disk} {directory : Nat} {name : Name}
  {slots : List (Position × ByteMemory)} {q : Position × ByteMemory} {short : ByteMemory}

/-- The short names of the entries in use. -/
def liveShorts (slots : List (Position × ByteMemory)) : List Name :=
  ((beforeEnd slots).filter (fun q => kindOf q.2 = .entry)).map (fun q => shortBytes q.2)

theorem mem_liveShorts {short : Name}
    (h : short ∈ liveShorts slots) :
    ∃ q ∈ beforeEnd slots, kindOf q.2 = .entry ∧ shortBytes q.2=short := by
  obtain ⟨q,hq,heq⟩ := mem_map.mp h
  rw [mem_filter] at hq
  exact ⟨q,hq.1,of_decide_eq_true hq.2,heq⟩

theorem sameShort_iff (a b : ByteMemory) : sameShort a b=true ↔ shortBytes a=shortBytes b := by
  rw [sameShort,all_eq_true,shortBytes,shortBytes,load,load]
  simp only [Nat.zero_add,beq_iff_eq,map_inj_left]

theorem beforeEnd_cons_next
    (h : kindOf q.2 ≠ .finish) : beforeEnd (q :: slots)=q :: beforeEnd slots :=
  takeWhile_cons_of_pos (decide_eq_true h)

theorem beforeEnd_cons_finish
    (h : kindOf q.2 = .finish) : beforeEnd (q :: slots)=[] :=
  takeWhile_cons_of_neg (by simp [h])

/-- A name that was not found is not the short name of an entry. -/
theorem findStep_fresh {lfn : LfnState}
    (h : (scan (fun q s => findStep name q.1 q.2 s) slots lfn).finish (fun _ => none)=none)
    (hshort : shortName name=some short) :
    ∀ q ∈ beforeEnd slots, kindOf q.2 = .entry → shortBytes q.2≠shortBytes short := by
  induction slots generalizing lfn with
  | nil =>
    intro q hq
    cases hq
  | cons r slots ih =>
    intro q hq hkind
    by_cases hfinish : kindOf r.2 = .finish
    · rw [beforeEnd_cons_finish hfinish] at hq
      cases hq
    rw [beforeEnd_cons_next hfinish] at hq
    cases hstep : findStep name r.1 r.2 lfn with
    | stop b =>
      rw [scan,hstep] at h
      have hb : b=none := h
      rw [findStep] at hstep
      cases hr : kindOf r.2 <;> rw [hr] at hstep
      · exact absurd hr hfinish
      · cases hstep
      · cases hstep
      · cases hstep
      dsimp only at hstep
      split_ifs at hstep
      cases hstep
      cases hb
    | next lfn' =>
      rw [scan,hstep] at h
      obtain rfl | hq := mem_cons.mp hq
      · have hmatch := (findStep_next hstep).2.2 hkind
        rw [matchesName,hshort,Bool.or_eq_false_iff] at hmatch
        intro heq
        have hsame : sameShort q.2 short=false := hmatch.1
        rw [(sameShort_iff _ _).mpr heq] at hsame
        cases hsame
      · exact ih h q hq hkind

/-- An alias that was not met is not the short name of an entry. -/
theorem aliasStep_fresh
    (h : (scan (fun q s => aliasStep short q.1 q.2 s) slots ()).finish (fun _ => false)=false) :
    ∀ q ∈ beforeEnd slots, kindOf q.2 = .entry → shortBytes q.2≠shortBytes short := by
  induction slots with
  | nil =>
    intro q hq
    cases hq
  | cons r slots ih =>
    intro q hq hkind heq
    by_cases hfinish : kindOf r.2 = .finish
    · rw [beforeEnd_cons_finish hfinish] at hq
      cases hq
    rw [beforeEnd_cons_next hfinish] at hq
    rw [scan,aliasStep,if_neg (fun h => hfinish (kindOf_finish.mpr h))] at h
    by_cases hskip : r.2 0=0xE5 ∨ r.2 11=0x0F
    · rw [if_pos hskip] at h
      obtain rfl | hq := mem_cons.mp hq
      · obtain hdeleted | hlong := hskip
        · rw [kindOf_deleted.mpr hdeleted] at hkind
          cases hkind
        have hzero : q.2 0≠0 := fun hz => hfinish (kindOf_finish.mpr hz)
        by_cases hdeleted : q.2 0=0xE5
        · rw [kindOf_deleted.mpr hdeleted] at hkind
          cases hkind
        · rw [kindOf_long.mpr ⟨hzero,hdeleted,hlong⟩] at hkind
          cases hkind
      · exact ih h q hq hkind heq
    · rw [if_neg hskip] at h
      by_cases hsame : sameShort r.2 short=true
      · rw [if_pos hsame] at h
        cases h
      rw [if_neg hsame] at h
      obtain rfl | hq := mem_cons.mp hq
      · exact hsame ((sameShort_iff _ _).mpr heq)
      · exact ih h q hq hkind heq

theorem makeShortAlias_fresh (hread : ∀ p ∈ dirPositions v d directory, p.sector<d.sectors)
    (hfind : findEntry v directory name d=none) {long : Bool}
    (h : makeShortAlias v directory name d=some (short,long)) :
    shortBytes short ∉ liveShorts (dirSlots v d directory) := by
  intro hmem
  obtain ⟨q,hq,hkind,heq⟩ := mem_liveShorts hmem
  obtain ⟨hdirect,-⟩ | ⟨hfree,-⟩ := makeShortAlias_some h
  · rw [findEntry,scanDirectory_eq hread] at hfind
    exact findStep_fresh hfind hdirect q hq hkind heq
  · rw [shortAliasExists,scanDirectory_eq hread] at hfree
    exact aliasStep_fresh hfree q hq hkind heq

end Live

end ConeOS.Fat32
