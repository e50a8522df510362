import ConeOS.Firmware.MadtGrammar

namespace ConeOS.Firmware

open ConeOS.Library ConeOS.Library.Reading List

section Reads

variable {limit p size : Nat} {bytes : Nat → UInt8} {s : ParseState}

theorem read16_below (h : p+1<limit) : Below limit (read16 p) bytes :=
  below_bind (below_byte (by omega)) (below_bind (below_byte h) (below_pure _))

theorem read32_below (h : p+3<limit) : Below limit (read32 p) bytes :=
  below_bind (read16_below (by omega)) (below_bind (read16_below (by omega)) (below_pure _))

theorem read64_below (h : p+7<limit) : Below limit (read64 p) bytes :=
  below_bind (read32_below (by omega)) (below_bind (read32_below (by omega)) (below_pure _))

theorem addBytes_below {count offset : Nat} (sum : UInt8) (h : offset+count≤limit) :
    Below limit (addBytes count offset sum) bytes := by
  induction count generalizing offset sum with
  | zero => exact below_pure _
  | succ count ih => exact below_bind (below_byte (by omega)) (ih _ (by omega))

theorem signatureValid_below (h : 4≤limit) : Below limit signatureValid bytes := by
  refine below_bind (below_byte (by omega)) (below_ite (fun _ => below_pure _) fun _ => ?_)
  refine below_bind (below_byte (by omega)) (below_ite (fun _ => below_pure _) fun _ => ?_)
  refine below_bind (below_byte (by omega)) (below_ite (fun _ => below_pure _) fun _ => ?_)
  exact below_bind (below_byte (by omega)) (below_pure _)

theorem parseLapic_below : Below (p+size) (parseLapic p size s) bytes := by
  refine below_ite (fun _ => below_pure _) fun _ => ?_
  exact below_bind (below_byte (by omega)) (below_bind (below_byte (by omega))
    (below_bind (read32_below (by omega)) (below_pure _)))

theorem parseIoapic_below : Below (p+size) (parseIoapic p size s) bytes := by
  refine below_ite (fun _ => below_pure _) fun h => ?_
  exact below_bind (read32_below (by omega)) (below_bind (below_byte (by omega))
    (below_bind (read32_below (by omega)) (below_pure _)))

theorem parseOverride_below : Below (p+size) (parseOverride p size s) bytes := by
  refine below_ite (fun _ => below_pure _) fun _ => ?_
  exact below_bind (below_byte (by omega)) (below_bind (below_byte (by omega))
    (below_bind (read16_below (by omega)) (below_bind (read32_below (by omega)) (below_pure _))))

theorem parseIoNmi_below : Below (p+size) (parseIoNmi p size s) bytes := by
  refine below_ite (fun _ => below_pure _) fun h => ?_
  exact below_bind (read16_below (by omega)) (below_bind (read32_below (by omega)) (below_pure _))

theorem parseLocalNmi_below : Below (p+size) (parseLocalNmi p size s) bytes := by
  refine below_ite (fun _ => below_pure _) fun h => ?_
  exact below_bind (below_byte (by omega)) (below_bind (read16_below (by omega))
    (below_bind (below_byte (by omega)) (below_pure _)))

theorem parseAddressOverride_below : Below (p+size) (parseAddressOverride p size s) bytes := by
  refine below_ite (fun _ => below_pure _) fun h => ?_
  exact below_bind (read64_below (by omega)) (below_pure _)

theorem parseX2apic_below : Below (p+size) (parseX2apic p size s) bytes := by
  refine below_ite (fun _ => below_pure _) fun _ => ?_
  exact below_bind (read32_below (by omega)) (below_bind (read32_below (by omega))
    (below_bind (read32_below (by omega)) (below_pure _)))

theorem parseX2apicNmi_below : Below (p+size) (parseX2apicNmi p size s) bytes := by
  refine below_ite (fun _ => below_pure _) fun h => ?_
  exact below_bind (below_byte (by omega)) (below_bind (read16_below (by omega))
    (below_bind (read32_below (by omega)) (below_pure _)))

theorem parseRecord_below (h : 2 ≤ size) : Below (p+size) (parseRecord p size s) bytes := by
  refine below_bind (below_byte (by omega)) ?_
  refine below_ite (fun _ => parseLapic_below) fun _ => ?_
  refine below_ite (fun _ => parseIoapic_below) fun _ => ?_
  refine below_ite (fun _ => parseOverride_below) fun _ => ?_
  refine below_ite (fun _ => parseIoNmi_below) fun _ => ?_
  refine below_ite (fun _ => parseLocalNmi_below) fun _ => ?_
  refine below_ite (fun _ => parseAddressOverride_below) fun _ => ?_
  refine below_ite (fun _ => parseX2apic_below) fun _ => ?_
  exact below_ite (fun _ => parseX2apicNmi_below) fun _ => below_pure _

theorem parseRecords_below (length offset : Nat) (s : ParseState) :
    ∀ i ∈ (parseRecords bytes length offset s).2, i<length := by
  induction offset, s using parseRecords.induct bytes length with
  | case1 offset s hlt hshort =>
    rw [parseRecords,if_pos hlt,if_pos hshort]
    intro i hi
    cases hi
  | case2 offset s hlt hroom size hbad =>
    rw [parseRecords,if_pos hlt,if_neg hroom,if_pos hbad]
    intro i hi
    rw [mem_singleton.mp hi]
    omega
  | case3 offset s hlt hroom size hsize reads hrecord =>
    rw [parseRecords,if_pos hlt,if_neg hroom,if_neg hsize,hrecord]
    intro i hi
    rcases mem_cons.mp hi with rfl | hi
    · omega
    have hbelow : Below (offset+size) (parseRecord offset size s) bytes :=
      parseRecord_below (by omega)
    have hi' := hbelow i (by rw [Reading.reads,hrecord]; exact hi)
    omega
  | case4 offset s hlt hroom size hsize s' reads hrecord ih =>
    rw [parseRecords,if_pos hlt,if_neg hroom,if_neg hsize,hrecord]
    intro i hi
    rcases mem_cons.mp hi with rfl | hi
    · omega
    rcases mem_append.mp hi with hi | hi
    · have hbelow : Below (offset+size) (parseRecord offset size s) bytes :=
        parseRecord_below (by omega)
      have hi' := hbelow i (by rw [Reading.reads,hrecord]; exact hi)
      omega
    · exact ih i hi
  | case5 offset s hge =>
    rw [parseRecords,if_neg hge]
    intro i hi
    cases hi

end Reads

section Body

variable {bytes : Nat → UInt8} {a f : Nat} {c : Contents} {r l body : List UInt8}
  {records : List (List UInt8)}

theorem consistent_of_add (h : (c.add r).Consistent) :
    c.Consistent := by
  have hle {α : Type} (l : List α) (x : List α) : l.length≤(l ++ x).length := by
    rw [length_append]
    omega
  have hnodup {α : Type} {l x : List α} {k : α → Nat} (h : ((l ++ x).map k).Nodup) :
      (l.map k).Nodup := by
    rw [map_append] at h
    exact (nodup_append.mp h).1
  exact
    { cpuCount := le_trans (hle _ _) h.cpuCount
      cpuIds := hnodup h.cpuIds
      cpuUids := hnodup h.cpuUids
      ioapicCount := le_trans (hle _ _) h.ioapicCount
      ioapicIds := hnodup h.ioapicIds
      ioapicAddresses := hnodup h.ioapicAddresses
      overrides := hnodup h.overrides
      ioNmiCount := le_trans (hle _ _) h.ioNmiCount
      localNmiCount := le_trans (hle _ _) h.localNmiCount
      addressCount := le_trans (hle _ _) h.addressCount }

theorem consistent_of_foldl
    (h : (records.foldl Contents.add c).Consistent) : c.Consistent := by
  induction records generalizing c with
  | nil => exact h
  | cons r records ih => exact consistent_of_add (ih h)

theorem contents_append (records : List (List UInt8)) (r : List UInt8) :
    contents (records ++ [r])=(contents records).add r := by
  have hone {α : Type} (g : List UInt8 → Option α) : [r].filterMap g=(g r).toList := by
    cases h : g r <;> simp [h]
  simp only [contents,Contents.add,filterMap_append,hone]

theorem contents_foldl (before records : List (List UInt8)) :
    records.foldl Contents.add (contents before)=contents (before ++ records) := by
  induction records generalizing before with
  | nil => rw [foldl_nil,append_nil]
  | cons r records ih =>
    rw [foldl_cons,← contents_append,ih,append_assoc,singleton_append]

theorem getD_append {l' : List UInt8} {i : Nat} (h : i<l.length) :
    (l ++ l').getD i 0=l.getD i 0 := by
  rw [getD_eq_getElem?_getD,getD_eq_getElem?_getD,List.getElem?_append_left h]

theorem getD_drop (l : List UInt8) (k i : Nat) : (l.drop k).getD i 0=l.getD (k+i) 0 := by
  rw [getD_eq_getElem?_getD,getD_eq_getElem?_getD,List.getElem?_drop]

theorem getD_take {k i : Nat} (h : i<k) :
    (l.take k).getD i 0=l.getD i 0 := by
  rw [getD_eq_getElem?_getD,getD_eq_getElem?_getD,List.getElem?_take_of_lt h]

theorem first_record (hne : body≠[])
    (hcut : body=records.flatten) (hw : ∀ r ∈ records, Framed r) :
    ∃ rest, records=body.take (byteAt body 1) :: rest ∧
      body.drop (byteAt body 1)=rest.flatten ∧ 2≤byteAt body 1 ∧
      byteAt body 1≤body.length := by
  cases records with
  | nil => exact absurd hcut hne
  | cons r rest =>
    obtain ⟨htwo,hr⟩ := hw r (mem_cons_self ..)
    rw [flatten_cons] at hcut
    have hsize : byteAt body 1=r.length := by
      rw [← hr,byteAt,byteAt,hcut,getD_append (by omega)]
    refine ⟨rest,?_,?_,by omega,?_⟩
    · rw [hsize,hcut,take_left]
    · rw [hsize,hcut,drop_left]
    · rw [hsize,hcut,length_append]
      omega

theorem WellFormed.framed (h : WellFormed r) : Framed r := ⟨h.least.1,h.size⟩

/-- A body is cut into records in one way only. -/
theorem cut_unique {records' : List (List UInt8)} (hw : ∀ r ∈ records, Framed r)
    (hw' : ∀ r ∈ records', Framed r) (h : records.flatten=records'.flatten) :
    records=records' := by
  induction records generalizing records' with
  | nil =>
    cases records' with
    | nil => rfl
    | cons r rest =>
      have htwo := (hw' r (mem_cons_self ..)).1
      have hlength := congrArg List.length h
      simp only [flatten_nil,length_nil,flatten_cons,length_append] at hlength
      omega
  | cons r rest ih =>
    obtain ⟨htwo,hsize⟩ := hw r (mem_cons_self ..)
    have hne : (r :: rest).flatten≠[] := by
      intro hnil
      have hlength := congrArg List.length hnil
      simp only [flatten_cons,length_append,length_nil] at hlength
      omega
    obtain ⟨rest1,hfirst1,hrest1,-⟩ := first_record hne rfl hw
    obtain ⟨rest2,hfirst2,hrest2,-⟩ := first_record hne h hw'
    obtain ⟨hr,hrest⟩ := List.cons.inj hfirst1
    rw [hfirst2]
    refine congrArg₂ List.cons hr (ih (fun x hx => hw x (mem_cons_of_mem _ hx)) ?_ ?_)
    · intro x hx
      exact hw' x (by rw [hfirst2]; exact mem_cons_of_mem _ hx)
    · rw [hrest,← hrest1,hrest2]

/-- The record loop takes exactly the bodies that are sequences of well-formed records which
fit together. -/
theorem parseRecords_iff (hbytes : ∀ i, i<body.length →
      bytes i=body.getD i 0) {offset : Nat} (hoffset : offset≤body.length)
    (h : c.Consistent) (s : ParseState) :
    (parseRecords bytes body.length offset (c.state a f)).1=some s ↔
      ∃ records : List (List UInt8), body.drop offset=records.flatten ∧ (∀ r ∈ records, WellFormed r) ∧
        (records.foldl Contents.add c).Consistent ∧
        s=(records.foldl Contents.add c).state a f := by
  generalize hn : body.length-offset=n
  induction n using Nat.strong_induction_on generalizing offset c with
  | _ n ih =>
    rw [parseRecords]
    by_cases hlt : offset<body.length
    case neg =>
      -- nothing is left, and no record is empty
      have hnil : body.drop offset=[] := drop_eq_nil_of_le (by omega)
      rw [if_neg hlt,hnil,Option.some.injEq]
      constructor
      · intro hs
        exact ⟨[],rfl,fun _ hr => absurd hr not_mem_nil,h,hs.symm⟩
      rintro ⟨records,hcut,hw,-,hs⟩
      cases records with
      | nil => exact hs.symm
      | cons r rest =>
        have htwo := (hw r (mem_cons_self ..)).least.1
        have hlength := congrArg List.length hcut
        rw [flatten_cons,length_append,length_nil] at hlength
        omega
    case pos =>
      have hne : body.drop offset≠[] := by
        rw [ne_eq,drop_eq_nil_iff]
        omega
      have hlength : (body.drop offset).length=body.length-offset := length_drop
      have hbyte : byteAt (body.drop offset) 1=byteAt body (offset+1) := by
        rw [byteAt,byteAt,getD_drop]
      rw [if_pos hlt]
      by_cases hshort : body.length-offset<2
      · rw [if_pos hshort]
        constructor
        · intro hs
          cases hs
        · rintro ⟨records,hcut,hw,-⟩
          obtain ⟨rest,-,-,htwo,hle⟩ := first_record hne hcut (fun r hr => (hw r hr).framed)
          omega
      rw [if_neg hshort]
      have hsize : (bytes (offset+1)).toNat=byteAt body (offset+1) := by
        rw [hbytes _ (by omega),byteAt]
      simp only [hsize]
      by_cases hbad : byteAt body (offset+1)<2 ∨
          body.length-offset<byteAt body (offset+1)
      · rw [if_pos hbad]
        constructor
        · intro hs
          cases hs
        rintro ⟨records,hcut,hw,-⟩
        obtain ⟨rest,-,-,htwo,hle⟩ := first_record hne hcut (fun r hr => (hw r hr).framed)
        rw [hbyte] at htwo hle
        omega
      rw [if_neg hbad]
      generalize hk : byteAt body (offset+1)=size at *
      generalize hr : (body.drop offset).take size=r
      have hrlength : r.length=size := by
        rw [← hr,length_take,hlength]
        omega
      have hat : At bytes offset r := by
        intro k hk'
        rw [hbytes _ (by omega),← hr,getD_take (by omega),getD_drop]
      have hrsize : byteAt r 1=r.length := by
        rw [hrlength,← hr,byteAt,getD_take (by omega),getD_drop]
        exact hk
      have hagrees := parseRecord_agrees (a := a) (f := f) h hat hrsize (by omega)
      rw [hrlength] at hagrees
      have hdrop : (body.drop offset).drop size=body.drop (offset+size) := drop_drop
      have hsplit : body.drop offset=r ++ body.drop (offset+size) := by
        rw [← hr,← hdrop,take_append_drop]
      -- the first record of any cut is `r`
      have hcut (P : List (List UInt8) → Prop) :
          (∃ records, body.drop offset=records.flatten ∧ (∀ x ∈ records, WellFormed x) ∧
            P records) ↔
          WellFormed r ∧ ∃ rest, body.drop (offset+size)=rest.flatten ∧
            (∀ x ∈ rest, WellFormed x) ∧ P (r :: rest) := by
        constructor
        · rintro ⟨records,hbody,hw,hP⟩
          obtain ⟨rest,rfl,hrest,-⟩ := first_record hne hbody (fun r hr => (hw r hr).framed)
          rw [hbyte,hr] at hw hP
          rw [hbyte,hdrop] at hrest
          exact ⟨hw r (mem_cons_self ..),rest,hrest,fun x hx => hw x (mem_cons_of_mem _ hx),hP⟩
        rintro ⟨hwr,rest,hrest,hw,hP⟩
        refine ⟨r :: rest,by rw [flatten_cons,hsplit,hrest],?_,hP⟩
        intro x hx
        rcases mem_cons.mp hx with rfl | hx
        · exact hwr
        · exact hw x hx
      rw [hcut]
      cases hrecord : parseRecord offset size (c.state a f) bytes with
      | mk result reads =>
        have hvalue : (parseRecord offset size (c.state a f)).value bytes=result := by
          rw [Reading.value,hrecord]
        rw [hvalue] at hagrees
        cases result with
        | none =>
          constructor
          · intro hs
            cases hs
          · rintro ⟨hwr,rest,-,-,hcons,-⟩
            have hnone := (hagrees _).mpr ⟨hwr,consistent_of_foldl hcons,rfl⟩
            cases hnone
        | some s' =>
          obtain ⟨hwr,hcons,rfl⟩ := (hagrees s').mp rfl
          rw [ih (body.length-(offset+size)) (by omega) (by omega) hcons rfl]
          exact ⟨fun hs => ⟨hwr,hs⟩,fun hs => hs.2⟩

end Body

section Table

/-- The bytes of a table that lies in memory. -/
def bytesOf (data : List UInt8) (i : Nat) : UInt8 := data.getD i 0

/-- The parser on a byte string. -/
def parseMadt (data : List UInt8) : Option AcpiTopology :=
  (acpiParseMadt data.length).value (bytesOf data)

variable {data : List UInt8}

theorem at_zero (data : List UInt8) : At (bytesOf data) 0 data := by
  intro k _
  rw [Nat.zero_add,bytesOf]

theorem read32_bytesOf {k : Nat} (h : k+3<data.length) :
    (read32 k).value (bytesOf data)=word32 data k := by
  have hread := (at_zero data).read32 h
  rwa [Nat.zero_add] at hread

theorem addBytes_value {bytes : Nat → UInt8} {l : List UInt8} {offset : Nat}
    (h : At bytes offset l) (sum : UInt8) :
    ((addBytes l.length offset sum).value bytes).toNat =
      (sum.toNat+(l.map UInt8.toNat).sum)%256 := by
  induction l generalizing offset sum with
  | nil =>
    have hlt := sum.toNat_lt
    simp only [length_nil,addBytes,value_pure,map_nil,sum_nil]
    omega
  | cons b l ih =>
    have hb : bytes offset=b := h 0 (by simp)
    have hrest : At bytes (offset+1) l := by
      intro k hk
      have hk' := h (k+1) (by simp only [length_cons]; omega)
      rw [Nat.add_right_comm,Nat.add_assoc,hk',getD_cons_succ]
    simp only [length_cons,addBytes,value_bind,value_byte,ih hrest,hb,map_cons,
      sum_cons,UInt8.toNat_add]
    omega

theorem acpiChecksumValid_iff {length : Nat} (h : length≤data.length) :
    (acpiChecksumValid length).value (bytesOf data)=true ↔
      ((data.take length).map UInt8.toNat).sum%256=0 := by
  have hat : At (bytesOf data) 0 (data.take length) := by
    intro k hk
    rw [length_take] at hk
    rw [Nat.zero_add,bytesOf,getD_take (by omega)]
  have hsum := addBytes_value hat 0
  rw [length_take,Nat.min_eq_left h,UInt8.toNat_zero,Nat.zero_add] at hsum
  simp only [acpiChecksumValid,value_bind,value_pure,beq_iff_eq,← hsum]
  rw [← UInt8.toNat_inj,UInt8.toNat_zero]

theorem signatureValid_iff (h : 44≤data.length) :
    signatureValid.value (bytesOf data)=true ↔ data.take 4=[0x41,0x50,0x49,0x43] := by
  match data, h with
  | b0 :: b1 :: b2 :: b3 :: rest, _ =>
    simp [signatureValid,bytesOf]

theorem finish_iff {a f : Nat} {c : Contents} {t : AcpiTopology} :
    finish (c.state a f)=some t ↔
      (c.cpus≠[] ∧ c.ioapics≠[] ∧
        lapicAddressValid (c.topology a f).lapicAddress=true) ∧ t=c.topology a f := by
  have hiff : (c.state a f).topology.cpus.length≠0 ∧
      (c.state a f).topology.ioapics.length≠0 ∧
      lapicAddressValid (c.state a f).topology.lapicAddress=true ↔
      c.cpus≠[] ∧ c.ioapics≠[] ∧
        lapicAddressValid (c.topology a f).lapicAddress=true := by
    rw [ne_eq,ne_eq,length_eq_zero_iff,length_eq_zero_iff]
    rfl
  unfold finish
  split_ifs with h
  · rw [Option.some.injEq]
    exact ⟨fun ht => ⟨hiff.mp h,ht.symm⟩,fun ht => ht.2.symm⟩
  constructor
  · intro ht
    cases ht
  · rintro ⟨hall,-⟩
    exact absurd (hiff.mpr hall) h

theorem consistent_nil : (contents []).Consistent := by
  constructor <;> simp [contents]

/-- The parser accepts exactly the tables, and delivers what their records say. -/
theorem parseMadt_iff (t : AcpiTopology) :
    parseMadt data=some t ↔ ∃ records, MadtTable data records ∧
      t=(contents records).topology (word32 data 36) (word32 data 40) := by
  unfold parseMadt acpiParseMadt
  by_cases hshort : data.length<44
  · rw [if_pos hshort,value_pure]
    constructor
    · intro hs
      cases hs
    · rintro ⟨records,htable,-⟩
      have := htable.length
      omega
  rw [if_neg hshort]
  simp only [value_bind,value_ite,value_pure,read32_bytesOf (by omega : 4+3<data.length),
    read32_bytesOf (by omega : 36+3<data.length),
    read32_bytesOf (by omega : 40+3<data.length)]
  by_cases hhead : signatureValid.value (bytesOf data)=false ∨ word32 data 4<44 ∨
      data.length<word32 data 4
  · rw [if_pos hhead]
    constructor
    · intro hs
      cases hs
    rintro ⟨records,htable,-⟩
    have hsig := (signatureValid_iff (by omega)).mpr htable.signature
    have hlength := htable.length
    rcases hhead with hhead | hhead
    · rw [hsig] at hhead
      cases hhead
    · omega
  rw [if_neg hhead]
  rw [not_or,not_or,Bool.not_eq_false,signatureValid_iff (by omega)] at hhead
  obtain ⟨hsig,hlow,hhigh⟩ := hhead
  have hchecksum : (acpiChecksumValid (word32 data 4)).value (bytesOf data)=true ↔ _ :=
    acpiChecksumValid_iff (by omega)
  by_cases hsum : (acpiChecksumValid (word32 data 4)).value (bytesOf data)=false
  · rw [if_pos hsum]
    constructor
    · intro hs
      cases hs
    · rintro ⟨records,htable,-⟩
      rw [hchecksum.mpr htable.checksum] at hsum
      cases hsum
  rw [if_neg hsum]
  rw [Bool.not_eq_false,hchecksum] at hsum
  -- the loop starts from a table without records
  have hbody : (data.take (word32 data 4)).length=word32 data 4 := by
    rw [length_take]
    omega
  have hpre (i : Nat) (hi : i<(data.take (word32 data 4)).length) :
      bytesOf data i=(data.take (word32 data 4)).getD i 0 := by
    rw [bytesOf,getD_take (by omega)]
  have hstart : 44≤(data.take (word32 data 4)).length := by omega
  have hloop := parseRecords_iff (a := word32 data 36) (f := word32 data 40) hpre hstart
    consistent_nil
  rw [hbody] at hloop
  have hvalue : (parseRecords (bytesOf data) (word32 data 4) 44
      ((contents []).state (word32 data 36) (word32 data 40))).1.bind finish=some t ↔ _ :=
    Option.bind_eq_some_iff
  refine Iff.trans hvalue ?_
  constructor
  · rintro ⟨s,hs,hfinish⟩
    obtain ⟨records,hcut,hw,hcons,rfl⟩ := (hloop s).mp hs
    rw [contents_foldl [] records,nil_append] at hcons hfinish
    obtain ⟨⟨hcpu,hioapic,haddress⟩,rfl⟩ := finish_iff.mp hfinish
    exact ⟨records,⟨hsig,by omega,hsum,hcut,hw,hcons,hcpu,hioapic,haddress⟩,rfl⟩
  rintro ⟨records,htable,rfl⟩
  refine ⟨(contents records).state _ _,(hloop _).mpr ⟨records,htable.body,
    htable.wellFormed,?_,?_⟩,finish_iff.mpr ⟨⟨htable.cpu,htable.ioapic,htable.lapicAddress⟩,rfl⟩⟩
  · rw [contents_foldl [] records]
    exact htable.consistent
  · rw [contents_foldl [] records]
    rfl

/-- Only the first eight bytes are read before the length field is known to be good. -/
theorem acpiParseMadt_below (data : List UInt8) :
    Below (min (max (word32 data 4) 8) data.length) (acpiParseMadt data.length)
      (bytesOf data) := by
  unfold acpiParseMadt
  refine below_ite (fun _ => below_pure _) fun hlong => ?_
  rw [not_lt] at hlong
  generalize hlimit : min (max (word32 data 4) 8) data.length=limit
  refine below_bind (read32_below (by omega)) ?_
  rw [read32_bytesOf (by omega)]
  refine below_bind (signatureValid_below (by omega)) ?_
  refine below_ite (fun _ => below_pure _) fun hhead => ?_
  rw [not_or,not_or] at hhead
  refine below_bind (below_bind (addBytes_below _ (by omega)) (below_pure _)) ?_
  refine below_ite (fun _ => below_pure _) fun _ => ?_
  refine below_bind (read32_below (by omega)) (below_bind (read32_below (by omega)) ?_)
  refine below_bind (fun i hi => ?_) (below_pure _)
  have hi' := parseRecords_below _ _ _ i hi
  omega

/-- The same topology but for the order of its lists. -/
structure AcpiTopology.Reordered (t t' : AcpiTopology) : Prop where
  cpus : t.cpus.Perm t'.cpus
  ioapics : t.ioapics.Perm t'.ioapics
  isaIrqs : t.isaIrqs=t'.isaIrqs
  localNmis : t.localNmis.Perm t'.localNmis
  ioNmis : t.ioNmis.Perm t'.ioNmis
  lapicAddress : t.lapicAddress=t'.lapicAddress
  flags : t.flags=t'.flags

/-- Both refused, or both accepted with the same topology but for the order. -/
inductive SameUpToOrder : Option AcpiTopology → Option AcpiTopology → Prop
  | refused : SameUpToOrder none none
  | accepted {t t' : AcpiTopology} : t.Reordered t' → SameUpToOrder (some t) (some t')

end Table

section Reordering

variable {records records' : List (List UInt8)}

theorem consistent_perm (h : records.Perm records') (hc : (contents records).Consistent) :
    (contents records').Consistent := by
  have hlength {α : Type} (g : List UInt8 → Option α) {n : Nat}
      (hn : (records.filterMap g).length≤n) : (records'.filterMap g).length≤n := by
    rwa [← (h.filterMap g).length_eq]
  have hnodup {α : Type} (g : List UInt8 → Option α) (k : α → Nat)
      (hn : ((records.filterMap g).map k).Nodup) : ((records'.filterMap g).map k).Nodup :=
    (((h.filterMap g).map k).nodup_iff).mp hn
  exact
    { cpuCount := hlength cpuOf hc.cpuCount
      cpuIds := hnodup cpuOf _ hc.cpuIds
      cpuUids := hnodup cpuOf _ hc.cpuUids
      ioapicCount := hlength ioapicOf hc.ioapicCount
      ioapicIds := hnodup ioapicOf _ hc.ioapicIds
      ioapicAddresses := hnodup ioapicOf _ hc.ioapicAddresses
      overrides := hnodup overrideOf _ hc.overrides
      ioNmiCount := hlength ioNmiOf hc.ioNmiCount
      localNmiCount := hlength localNmiOf hc.localNmiCount
      addressCount := hlength addressOf hc.addressCount }

/-- With one override for each interrupt at most, their order does not matter. -/
theorem isaIrq_perm (h : records.Perm records') (hc : (contents records).Consistent) :
    (contents records').isaIrq=(contents records).isaIrq := by
  have hperm : (contents records).overrides.Perm (contents records').overrides :=
    h.filterMap overrideOf
  have hnodup := hc.overrides
  funext i
  unfold Contents.isaIrq
  have hfind : (contents records').overrides.find? (fun o => o.irq == i) =
      (contents records).overrides.find? (fun o => o.irq == i) := by
    generalize (contents records).overrides=l at *
    generalize (contents records').overrides=l' at *
    cases hl : l.find? (fun o => o.irq == i) with
    | none =>
      rw [List.find?_eq_none] at hl ⊢
      intro o ho
      exact hl o (hperm.mem_iff.mpr ho)
    | some o =>
      have ho := mem_of_find?_eq_some hl
      have hirq : o.irq=i := by simpa using List.find?_some hl
      cases hl' : l'.find? (fun o => o.irq == i) with
      | none =>
        rw [List.find?_eq_none] at hl'
        exact absurd (by simpa using hirq) (hl' o (hperm.mem_iff.mp ho))
      | some o' =>
        have ho' := hperm.mem_iff.mpr (mem_of_find?_eq_some hl')
        have hirq' : o'.irq=i := by simpa using List.find?_some hl'
        rw [inj_on_of_nodup_map hnodup ho' ho (hirq'.trans hirq.symm)]
  rw [hfind]

theorem topology_perm (a f : Nat) (h : records.Perm records')
    (hc : (contents records).Consistent) :
    ((contents records).topology a f).Reordered ((contents records').topology a f) := by
  have haddress : (contents records').addresses=(contents records).addresses := by
    have hperm : (contents records).addresses.Perm (contents records').addresses :=
      h.filterMap addressOf
    have hone := hc.addressCount
    match hl : (contents records).addresses, hone with
    | [], _ =>
      rw [hl] at hperm
      exact hperm.symm.eq_nil
    | [x], _ =>
      rw [hl] at hperm
      exact perm_singleton.mp hperm.symm
  refine ⟨h.filterMap cpuOf,h.filterMap ioapicOf,(isaIrq_perm h hc).symm,
    h.filterMap localNmiOf,h.filterMap ioNmiOf,?_,rfl⟩
  simp only [Contents.topology,haddress]

/-- A table cut into its header and its records. -/
structure Cut (header : List UInt8) (records : List (List UInt8)) : Prop where
  headerLength : header.length=44
  framed : ∀ r ∈ records, Framed r
  tableLength : word32 header 4=44+records.flatten.length

section Cuts

variable {header rest : List UInt8}

theorem Cut.word32_eq (h : Cut header records) {k : Nat} (hk : k+3<44) :
    word32 (header ++ records.flatten ++ rest) k=word32 header k := by
  have hheader := h.headerLength
  have hbyte {i : Nat} (hi : i<44) :
      byteAt (header ++ records.flatten ++ rest) i=byteAt header i := by
    rw [byteAt,byteAt,append_assoc,getD_append (by omega)]
  simp only [word32,word16]
  rw [hbyte (by omega),hbyte (by omega),hbyte (by omega),hbyte (by omega)]

theorem Cut.perm (h : Cut header records) (hperm : records.Perm records') :
    Cut header records' :=
  ⟨h.headerLength,fun r hr => h.framed r (hperm.mem_iff.mpr hr),by
    rw [h.tableLength,hperm.flatten.length_eq]⟩

theorem Cut.take_eq (h : Cut header records) :
    (header ++ records.flatten ++ rest).take (44+records.flatten.length) =
      header ++ records.flatten := by
  rw [take_left' (by rw [length_append,h.headerLength])]

theorem Cut.table_iff (h : Cut header records) :
    (∃ t, parseMadt (header ++ records.flatten ++ rest)=some t) ↔
      MadtTable (header ++ records.flatten ++ rest) records := by
  constructor
  · rintro ⟨t,ht⟩
    obtain ⟨records',htable,-⟩ := (parseMadt_iff t).mp ht
    have hbody := htable.body
    rw [h.word32_eq (by omega),h.tableLength,h.take_eq,drop_left' h.headerLength] at hbody
    have hsame := cut_unique h.framed (fun r hr => (htable.wellFormed r hr).framed) hbody
    rw [hsame]
    rw [hsame] at htable
    exact htable
  · intro htable
    exact ⟨_,(parseMadt_iff _).mpr ⟨records,htable,rfl⟩⟩

/-- Reordering the records of a table gives a table. -/
theorem Cut.reorder (h : Cut header records) (hperm : records.Perm records')
    (htable : MadtTable (header ++ records.flatten ++ rest) records) :
    MadtTable (header ++ records'.flatten ++ rest) records' := by
  have h' := h.perm hperm
  have hflat := hperm.flatten
  have hheader := h.headerLength
  have hlength : (header ++ records'.flatten ++ rest).length =
      (header ++ records.flatten ++ rest).length := by
    simp only [length_append,hflat.length_eq]
  have htake (l : List UInt8) : (header ++ l).take 4=header.take 4 :=
    take_append_of_le_length (by omega)
  obtain ⟨hsum,hsig,hlen⟩ := And.intro htable.checksum (And.intro htable.signature htable.length)
  refine ⟨?_,?_,?_,?_,?_,consistent_perm hperm htable.consistent,?_,?_,?_⟩
  · rw [append_assoc,htake] at hsig ⊢
    exact hsig
  · rw [h.word32_eq (by omega)] at hlen
    rw [h'.word32_eq (by omega),hlength]
    exact hlen
  · rw [h.word32_eq (by omega),h.tableLength,h.take_eq,map_append,sum_append] at hsum
    rw [h'.word32_eq (by omega),h'.tableLength,h'.take_eq,map_append,sum_append,
      ← (hflat.map UInt8.toNat).sum_nat]
    exact hsum
  · rw [h'.word32_eq (by omega),h'.tableLength,h'.take_eq,drop_left' hheader]
  · exact fun r hr => htable.wellFormed r (hperm.mem_iff.mpr hr)
  · intro hnil
    apply htable.cpu
    exact (hnil ▸ hperm.filterMap cpuOf : (records.filterMap cpuOf).Perm []).eq_nil
  · intro hnil
    apply htable.ioapic
    exact (hnil ▸ hperm.filterMap ioapicOf : (records.filterMap ioapicOf).Perm []).eq_nil
  have haddress := htable.lapicAddress
  have hsame := (topology_perm (word32 header 36) (word32 header 40) hperm
    htable.consistent).lapicAddress
  rw [h.word32_eq (by omega),h.word32_eq (by omega)] at haddress
  rw [h'.word32_eq (by omega),h'.word32_eq (by omega),← hsame]
  exact haddress

/-- Neither acceptance nor what is delivered depends on the order of the records. -/
theorem Cut.parse_perm (h : Cut header records) (hperm : records.Perm records') :
    SameUpToOrder (parseMadt (header ++ records.flatten ++ rest))
      (parseMadt (header ++ records'.flatten ++ rest)) := by
  have h' := h.perm hperm
  by_cases htable : MadtTable (header ++ records.flatten ++ rest) records
  · have htable' := h.reorder hperm htable
    rw [(parseMadt_iff _).mpr ⟨records,htable,rfl⟩,(parseMadt_iff _).mpr ⟨records',htable',rfl⟩]
    rw [h.word32_eq (by omega),h.word32_eq (by omega),h'.word32_eq (by omega),
      h'.word32_eq (by omega)]
    exact .accepted (topology_perm _ _ hperm htable.consistent)
  have htable' : ¬ MadtTable (header ++ records'.flatten ++ rest) records' :=
    fun hx => htable (h'.reorder hperm.symm hx)
  have hnone := mt h.table_iff.mp htable
  have hnone' := mt h'.table_iff.mp htable'
  rw [not_exists] at hnone hnone'
  rw [Option.eq_none_iff_forall_ne_some.mpr hnone,Option.eq_none_iff_forall_ne_some.mpr hnone']
  exact .refused

end Cuts

end Reordering

/-- The parser reads nothing beyond the table but its first eight bytes, accepts exactly the
tables of the grammar, delivers what their records say, and does not depend on the order of
the records. -/
theorem acpiParseMadt_correct (data : List UInt8) :
    Below (min (max (word32 data 4) 8) data.length) (acpiParseMadt data.length) (bytesOf data) ∧
      (∀ t, parseMadt data=some t ↔ ∃ records, MadtTable data records ∧
        t=(contents records).topology (word32 data 36) (word32 data 40)) ∧
      ∀ header records records' rest, Cut header records →
        data=header ++ records.flatten ++ rest → records.Perm records' →
        SameUpToOrder (parseMadt data) (parseMadt (header ++ records'.flatten ++ rest)) := by
  refine ⟨acpiParseMadt_below data,parseMadt_iff,?_⟩
  rintro header records records' rest hcut rfl hperm
  exact hcut.parse_perm hperm

/-- A header for one CPU and one IOAPIC. -/
def sampleHeader : List UInt8 :=
  [0x41,0x50,0x49,0x43,64,0,0,0,0,239] ++ List.replicate 26 0 ++
    [0,0,0xE0,0xFE,1,0,0,0]

def sampleLapic : List UInt8 := [0,8,0,0,1,0,0,0]

def sampleIoapic : List UInt8 := [1,12,1,0,0,0,0xC0,0xFE,0,0,0,0]

theorem sample_cut : Cut sampleHeader [sampleLapic,sampleIoapic] := by
  refine ⟨by decide,?_,by decide⟩
  intro r hr
  rcases mem_pair.mp hr with rfl | rfl
  · exact ⟨by decide,by decide⟩
  · exact ⟨by decide,by decide⟩

theorem sample_records_swapped :
    Cut sampleHeader [sampleLapic,sampleIoapic] ∧
      SameUpToOrder (parseMadt (sampleHeader ++ [sampleLapic,sampleIoapic].flatten ++ []))
        (parseMadt (sampleHeader ++ [sampleIoapic,sampleLapic].flatten ++ [])) := by
  obtain ⟨-,-,hperm⟩ :=
    acpiParseMadt_correct (sampleHeader ++ [sampleLapic,sampleIoapic].flatten ++ [])
  have hswap : [sampleLapic,sampleIoapic].Perm [sampleIoapic,sampleLapic] :=
    List.Perm.swap sampleIoapic sampleLapic []
  exact ⟨sample_cut,hperm sampleHeader _ _ [] sample_cut rfl hswap⟩

/-- The length field itself is read even if it is smaller than its own end. -/
theorem length_field_read_below_itself :
    ¬ ∀ data : List UInt8, Below (min (word32 data 4) data.length) (acpiParseMadt data.length)
      (bytesOf data) := by
  intro h
  have hread : 4 ∈ (acpiParseMadt 44).reads (bytesOf (List.replicate 44 0)) := by decide
  have hlimit : min (word32 (List.replicate 44 0) 4) 44=0 := by decide
  have hlt := h (List.replicate 44 0) 4 hread
  rw [length_replicate,hlimit] at hlt
  omega

end ConeOS.Firmware
