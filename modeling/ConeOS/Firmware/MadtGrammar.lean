import ConeOS.Firmware.Madt
import Mathlib.Data.List.Nodup
import Mathlib.Data.List.Perm.Basic

namespace ConeOS.Firmware

open ConeOS.Library ConeOS.Library.Reading Function List

def byteAt (r : List UInt8) (k : Nat) : Nat := (r.getD k 0).toNat

def word16 (r : List UInt8) (k : Nat) : Nat := byteAt r k+byteAt r (k+1)*2 ^ 8

def word32 (r : List UInt8) (k : Nat) : Nat := word16 r k+word16 r (k+2)*2 ^ 16

def word64 (r : List UInt8) (k : Nat) : Nat := word32 r k+word32 r (k+4)*2 ^ 32

/-- The least size of a record of each type. -/
def minimumSize (type : Nat) : Nat :=
  if type=0 then 8 else if type=1 then 12 else if type=2 then 10 else if type=3 then 8
  else if type=4 then 6 else if type=5 then 12 else if type=9 then 16
  else if type=10 then 12 else 2

structure IsaOverride where
  bus : Nat
  irq : Nat
  gsi : Nat
  flags : Nat
  deriving DecidableEq, Repr

section Views

variable (r : List UInt8)

def cpuOf : Option AcpiCpu :=
  if byteAt r 0=0 then some ⟨byteAt r 2,byteAt r 3,word32 r 4⟩
  else if byteAt r 0=9 then some ⟨word32 r 12,word32 r 4,word32 r 8⟩
  else none

def ioapicOf : Option AcpiIoapic :=
  if byteAt r 0=1 then some ⟨word32 r 4,word32 r 8,byteAt r 2⟩ else none

def overrideOf : Option IsaOverride :=
  if byteAt r 0=2 then some ⟨byteAt r 2,byteAt r 3,word32 r 4,word16 r 8⟩ else none

def ioNmiOf : Option AcpiIoNmi :=
  if byteAt r 0=3 then some ⟨word32 r 4,word16 r 2⟩ else none

def localNmiOf : Option AcpiLocalNmi :=
  if byteAt r 0=4 then some ⟨byteAt r 2,word16 r 3,byteAt r 5,byteAt r 2 == 255⟩
  else if byteAt r 0=10 then
    some ⟨word32 r 4,word16 r 2,byteAt r 8,word32 r 4 == 2 ^ 32-1⟩
  else none

def addressOf : Option Nat := if byteAt r 0=5 then some (word64 r 4) else none

/-- The second byte is the size. -/
def Framed : Prop := 2≤r.length ∧ byteAt r 1=r.length

/-- A record by itself: its size field, the least size of its type, and its fields. -/
@[mk_iff]
structure WellFormed : Prop where
  size : byteAt r 1=r.length
  least : 2≤r.length ∧ minimumSize (byteAt r 0)≤r.length
  ioapic : ∀ a ∈ ioapicOf r, a.address≠0 ∧ a.address%4096=0
  override : ∀ o ∈ overrideOf r, o.bus=0 ∧ o.irq<16 ∧ acpiInterruptFlagsValid o.flags=true
  ioNmi : ∀ n ∈ ioNmiOf r, acpiInterruptFlagsValid n.flags=true
  localNmi : ∀ n ∈ localNmiOf r, n.lint≤1 ∧ acpiInterruptFlagsValid n.flags=true

end Views

/-- What a sequence of records says, kind by kind and in order. -/
structure Contents where
  cpus : List AcpiCpu
  ioapics : List AcpiIoapic
  overrides : List IsaOverride
  ioNmis : List AcpiIoNmi
  localNmis : List AcpiLocalNmi
  addresses : List Nat

def contents (records : List (List UInt8)) : Contents :=
  { cpus := records.filterMap cpuOf
    ioapics := records.filterMap ioapicOf
    overrides := records.filterMap overrideOf
    ioNmis := records.filterMap ioNmiOf
    localNmis := records.filterMap localNmiOf
    addresses := records.filterMap addressOf }

namespace Contents

/-- The limits and the absence of duplicates. -/
structure Consistent (c : Contents) : Prop where
  cpuCount : c.cpus.length≤acpiMaxCpus
  cpuIds : (c.cpus.map AcpiCpu.apicId).Nodup
  cpuUids : (c.cpus.map AcpiCpu.uid).Nodup
  ioapicCount : c.ioapics.length≤acpiMaxIoapics
  ioapicIds : (c.ioapics.map AcpiIoapic.id).Nodup
  ioapicAddresses : (c.ioapics.map AcpiIoapic.address).Nodup
  overrides : (c.overrides.map IsaOverride.irq).Nodup
  ioNmiCount : c.ioNmis.length≤acpiMaxNmis
  localNmiCount : c.localNmis.length≤acpiMaxNmis
  addressCount : c.addresses.length≤1

/-- The ISA map: the override of an interrupt if it has one, the identity otherwise. -/
def isaIrq (c : Contents) (i : Nat) : AcpiIsaIrq :=
  match c.overrides.find? (fun o => o.irq == i) with
  | some o => ⟨o.gsi,o.flags,true⟩
  | none => ⟨i,0,false⟩

/-- The topology of a table with this header and these records. -/
def topology (lapicAddress flags : Nat) (c : Contents) : AcpiTopology :=
  { lapicAddress := c.addresses.head?.getD lapicAddress
    flags := flags
    cpus := c.cpus
    ioapics := c.ioapics
    isaIrqs := c.isaIrq
    localNmis := c.localNmis
    ioNmis := c.ioNmis }

def state (lapicAddress flags : Nat) (c : Contents) : ParseState :=
  ⟨c.topology lapicAddress flags,!c.addresses.isEmpty⟩

/-- One more record. -/
def add (c : Contents) (r : List UInt8) : Contents :=
  { cpus := c.cpus ++ (cpuOf r).toList
    ioapics := c.ioapics ++ (ioapicOf r).toList
    overrides := c.overrides ++ (overrideOf r).toList
    ioNmis := c.ioNmis ++ (ioNmiOf r).toList
    localNmis := c.localNmis ++ (localNmiOf r).toList
    addresses := c.addresses ++ (addressOf r).toList }

end Contents

/-- A table: its header, its checksum, and its body cut into records. -/
structure MadtTable (data : List UInt8) (records : List (List UInt8)) : Prop where
  signature : data.take 4=[0x41,0x50,0x49,0x43]
  length : 44≤word32 data 4 ∧ word32 data 4≤data.length
  checksum : ((data.take (word32 data 4)).map UInt8.toNat).sum%256=0
  body : (data.take (word32 data 4)).drop 44=records.flatten
  wellFormed : ∀ r ∈ records, WellFormed r
  consistent : (contents records).Consistent
  cpu : (contents records).cpus≠[]
  ioapic : (contents records).ioapics≠[]
  lapicAddress : lapicAddressValid
    ((contents records).topology (word32 data 36) (word32 data 40)).lapicAddress=true

section Adding

variable {c : Contents} {a f : Nat} {s : ParseState}

theorem nodup_map_append {α : Type} {l : List α} {x : α} (k : α → Nat) :
    ((l ++ [x]).map k).Nodup ↔ (l.map k).Nodup ∧ ∀ y ∈ l, k y≠k x := by
  rw [map_append,nodup_append]
  simp only [map_cons,map_nil,nodup_cons,not_mem_nil,not_false_eq_true,nodup_nil,and_self,true_and,
    mem_map,forall_exists_index,and_imp,forall_apply_eq_imp_iff₂,mem_singleton,ne_eq,forall_eq]

theorem consistent_cpu (h : c.Consistent) (x : AcpiCpu) :
    ({ c with cpus := c.cpus ++ [x] } : Contents).Consistent ↔
      c.cpus.length≠acpiMaxCpus ∧ ∀ y ∈ c.cpus, y.apicId≠x.apicId ∧ y.uid≠x.uid := by
  have hcount := h.cpuCount
  constructor
  · intro h'
    have hlength := h'.cpuCount
    rw [length_append] at hlength
    have hids := ((nodup_map_append _).mp h'.cpuIds).2
    have huids := ((nodup_map_append _).mp h'.cpuUids).2
    simp only [length_cons,length_nil] at hlength
    exact ⟨by omega,fun y hy => ⟨hids y hy,huids y hy⟩⟩
  · rintro ⟨hlength,hfresh⟩
    refine { h with cpuCount := ?_, cpuIds := ?_, cpuUids := ?_ }
    · simp only [length_append,length_cons,length_nil]
      omega
    · exact (nodup_map_append _).mpr ⟨h.cpuIds,fun y hy => (hfresh y hy).1⟩
    · exact (nodup_map_append _).mpr ⟨h.cpuUids,fun y hy => (hfresh y hy).2⟩

theorem consistent_ioapic (h : c.Consistent) (x : AcpiIoapic) :
    ({ c with ioapics := c.ioapics ++ [x] } : Contents).Consistent ↔
      c.ioapics.length≠acpiMaxIoapics ∧
        ∀ y ∈ c.ioapics, y.id≠x.id ∧ y.address≠x.address := by
  have hcount := h.ioapicCount
  constructor
  · intro h'
    have hlength := h'.ioapicCount
    rw [length_append] at hlength
    have hids := ((nodup_map_append _).mp h'.ioapicIds).2
    have haddresses := ((nodup_map_append _).mp h'.ioapicAddresses).2
    simp only [length_cons,length_nil] at hlength
    exact ⟨by omega,fun y hy => ⟨hids y hy,haddresses y hy⟩⟩
  · rintro ⟨hlength,hfresh⟩
    refine { h with ioapicCount := ?_, ioapicIds := ?_, ioapicAddresses := ?_ }
    · simp only [length_append,length_cons,length_nil]
      omega
    · exact (nodup_map_append _).mpr ⟨h.ioapicIds,fun y hy => (hfresh y hy).1⟩
    · exact (nodup_map_append _).mpr ⟨h.ioapicAddresses,fun y hy => (hfresh y hy).2⟩

theorem consistent_override (h : c.Consistent) (x : IsaOverride) :
    ({ c with overrides := c.overrides ++ [x] } : Contents).Consistent ↔
      ∀ y ∈ c.overrides, y.irq≠x.irq := by
  constructor
  · intro h'
    exact ((nodup_map_append _).mp h'.overrides).2
  · intro hfresh
    exact { h with overrides := (nodup_map_append _).mpr ⟨h.overrides,hfresh⟩ }

theorem consistent_ioNmi (h : c.Consistent) (x : AcpiIoNmi) :
    ({ c with ioNmis := c.ioNmis ++ [x] } : Contents).Consistent ↔
      c.ioNmis.length≠acpiMaxNmis := by
  have hcount := h.ioNmiCount
  constructor
  · intro h'
    have hlength := h'.ioNmiCount
    simp only [length_append,length_cons,length_nil] at hlength
    omega
  intro hlength
  refine { h with ioNmiCount := ?_ }
  simp only [length_append,length_cons,length_nil]
  omega

theorem consistent_localNmi (h : c.Consistent) (x : AcpiLocalNmi) :
    ({ c with localNmis := c.localNmis ++ [x] } : Contents).Consistent ↔
      c.localNmis.length≠acpiMaxNmis := by
  have hcount := h.localNmiCount
  constructor
  · intro h'
    have hlength := h'.localNmiCount
    simp only [length_append,length_cons,length_nil] at hlength
    omega
  intro hlength
  refine { h with localNmiCount := ?_ }
  simp only [length_append,length_cons,length_nil]
  omega

theorem consistent_address (h : c.Consistent) (x : Nat) :
    ({ c with addresses := c.addresses ++ [x] } : Contents).Consistent ↔ c.addresses=[] := by
  constructor
  · intro h'
    have hlength := h'.addressCount
    simp only [length_append,length_cons,length_nil] at hlength
    exact length_eq_zero_iff.mp (by omega)
  · intro hnil
    refine { h with addressCount := ?_ }
    simp [hnil]

theorem withCpu_iff (h : c.Consistent) (uid id flags : Nat) :
    (c.state a f).withCpu uid id flags=some s ↔
      ({ c with cpus := c.cpus ++ [⟨uid,id,flags⟩] } : Contents).Consistent ∧
        s=({ c with cpus := c.cpus ++ [⟨uid,id,flags⟩] } : Contents).state a f := by
  rw [consistent_cpu h,ParseState.withCpu,Option.map_eq_some_iff]
  have hcpus : (c.state a f).topology.cpus=c.cpus := rfl
  unfold addCpu
  rw [hcpus]
  constructor
  · rintro ⟨t,ht,rfl⟩
    split_ifs at ht with hfull hdup
    cases ht
    refine ⟨⟨hfull,?_⟩,rfl⟩
    simpa [not_or] using hdup
  rintro ⟨⟨hfull,hfresh⟩,rfl⟩
  have hdup : c.cpus.any (fun y => y.apicId == id || y.uid == uid)=false := by
    simpa [not_or] using hfresh
  rw [if_neg hfull,hdup]
  exact ⟨_,rfl,rfl⟩

theorem addIoapic_iff (h : c.Consistent) (hroom : c.ioapics.length≠acpiMaxIoapics)
    (address gsiBase id : Nat) :
    addIoapic (c.state a f) address gsiBase id=some s ↔
      (address≠0 ∧ address%4096=0) ∧
        ({ c with ioapics := c.ioapics ++ [⟨address,gsiBase,id⟩] } : Contents).Consistent ∧
        s=({ c with ioapics := c.ioapics ++ [⟨address,gsiBase,id⟩] } : Contents).state a f := by
  rw [consistent_ioapic h]
  have hioapics : (c.state a f).topology.ioapics=c.ioapics := rfl
  unfold addIoapic
  rw [hioapics]
  constructor
  · intro hs
    split_ifs at hs with hbad hdup
    cases hs
    rw [not_or,not_not] at hbad
    refine ⟨hbad,⟨hroom,?_⟩,rfl⟩
    simpa [not_or] using hdup
  · rintro ⟨⟨hzero,halign⟩,⟨-,hfresh⟩,rfl⟩
    have hdup : c.ioapics.any (fun y => y.id == id || y.address == address)=false := by
      simpa [not_or] using hfresh
    rw [if_neg (by simp [hzero,halign]),hdup]
    rfl

theorem isaIrq_append {x : IsaOverride} (hfresh : ∀ y ∈ c.overrides, y.irq≠x.irq) :
    ({ c with overrides := c.overrides ++ [x] } : Contents).isaIrq =
      update c.isaIrq x.irq ⟨x.gsi,x.flags,true⟩ := by
  funext i
  have hnone : c.overrides.find? (fun o => o.irq == x.irq)=none := by
    rw [List.find?_eq_none]
    intro y hy
    simpa using hfresh y hy
  unfold Contents.isaIrq
  dsimp only
  rw [List.find?_append]
  by_cases hi : i=x.irq
  · subst hi
    rw [hnone,update_self]
    simp
  rw [update_of_ne hi]
  have hx : ([x].find? (fun o => o.irq == i))=none := by
    simp [Ne.symm hi]
  rw [hx,Option.or_none]

theorem isaIrq_overridden (c : Contents) (i : Nat) :
    (c.isaIrq i).overridden=false ↔ ∀ y ∈ c.overrides, y.irq≠i := by
  unfold Contents.isaIrq
  cases hfind : c.overrides.find? (fun o => o.irq == i) with
  | none =>
    rw [List.find?_eq_none] at hfind
    simpa using hfind
  | some o =>
    have hmem := mem_of_find?_eq_some hfind
    have hirq := List.find?_some hfind
    simp only [Bool.true_eq_false,false_iff,not_forall,not_not]
    exact ⟨o,hmem,by simpa using hirq⟩

theorem addOverride_iff (h : c.Consistent) (bus irq gsi flags : Nat) :
    addOverride (c.state a f) bus irq gsi flags=some s ↔
      (bus=0 ∧ irq<16 ∧ acpiInterruptFlagsValid flags=true) ∧
        ({ c with overrides := c.overrides ++ [⟨bus,irq,gsi,flags⟩] } : Contents).Consistent ∧
        s=({ c with overrides := c.overrides ++ [⟨bus,irq,gsi,flags⟩] } :
          Contents).state a f := by
  rw [consistent_override h]
  have hstate (hfresh : ∀ y ∈ c.overrides, y.irq≠irq) :
      ({ c with overrides := c.overrides ++ [⟨bus,irq,gsi,flags⟩] } : Contents).state a f =
        { c.state a f with
          topology :=
            { (c.state a f).topology with
              isaIrqs := update c.isaIrq irq ⟨gsi,flags,true⟩ } } := by
    have hmap := isaIrq_append (x := ⟨bus,irq,gsi,flags⟩) hfresh
    unfold Contents.state Contents.topology
    rw [hmap]
  have hirqs : (c.state a f).topology.isaIrqs=c.isaIrq := rfl
  unfold addOverride
  rw [hirqs]
  constructor
  · intro hs
    split_ifs at hs with hbad hdup
    cases hs
    have hfresh := (isaIrq_overridden c irq).mp (by simpa using hdup)
    refine ⟨?_,hfresh,(hstate hfresh).symm⟩
    simpa [not_or] using hbad
  · rintro ⟨⟨hbus,hirq,hflags⟩,hfresh,rfl⟩
    have hdup := (isaIrq_overridden c irq).mpr hfresh
    rw [if_neg (by simp [hbus,hirq,hflags]),hdup,hstate hfresh]
    rfl

theorem addIoNmi_iff (h : c.Consistent) (hroom : c.ioNmis.length≠acpiMaxNmis)
    (gsi flags : Nat) :
    addIoNmi (c.state a f) gsi flags=some s ↔
      acpiInterruptFlagsValid flags=true ∧
        ({ c with ioNmis := c.ioNmis ++ [⟨gsi,flags⟩] } : Contents).Consistent ∧
        s=({ c with ioNmis := c.ioNmis ++ [⟨gsi,flags⟩] } : Contents).state a f := by
  rw [consistent_ioNmi h]
  unfold addIoNmi
  cases acpiInterruptFlagsValid flags with
  | false => simp
  | true =>
    simp only [Bool.not_true,Bool.false_eq_true,if_false,true_and,Option.some.injEq]
    exact ⟨fun hs => ⟨hroom,hs.symm⟩,fun hs => hs.2.symm⟩

theorem addLocalNmi_iff (h : c.Consistent) (hroom : c.localNmis.length≠acpiMaxNmis)
    (uid flags lint : Nat) (allCpus : Bool) :
    addLocalNmi (c.state a f) uid flags lint allCpus=some s ↔
      (lint≤1 ∧ acpiInterruptFlagsValid flags=true) ∧
        ({ c with localNmis := c.localNmis ++ [⟨uid,flags,lint,allCpus⟩] } :
          Contents).Consistent ∧
        s=({ c with localNmis := c.localNmis ++ [⟨uid,flags,lint,allCpus⟩] } :
          Contents).state a f := by
  rw [consistent_localNmi h]
  unfold addLocalNmi
  constructor
  · intro hs
    split_ifs at hs with hbad
    cases hs
    refine ⟨?_,hroom,rfl⟩
    simpa [not_or] using hbad
  · rintro ⟨⟨hlint,hflags⟩,-,rfl⟩
    rw [if_neg (by simp [hlint,hflags])]
    rfl

theorem addAddress_iff (h : c.Consistent) (address : Nat) :
    (c.addresses=[] ∧ s=(c.state a f).withAddress address) ↔
      ({ c with addresses := c.addresses ++ [address] } : Contents).Consistent ∧
        s=({ c with addresses := c.addresses ++ [address] } : Contents).state a f := by
  rw [consistent_address h]
  apply and_congr_right
  intro hnil
  have hstate : ({ c with addresses := c.addresses ++ [address] } : Contents).state a f =
      (c.state a f).withAddress address := by
    unfold ParseState.withAddress Contents.state Contents.topology
    simp only [hnil,nil_append,List.head?_cons,Option.getD_some]
    rfl
  rw [hstate]

end Adding

section Step

variable {bytes : Nat → UInt8} {p a f : Nat} {r : List UInt8} {c : Contents} {s : ParseState}

/-- The record `r` stands at `p`. -/
def At (bytes : Nat → UInt8) (p : Nat) (r : List UInt8) : Prop :=
  ∀ k, k<r.length → bytes (p+k)=r.getD k 0

theorem At.byte (h : At bytes p r) {k : Nat} (hk : k<r.length) :
    (bytes (p+k)).toNat=byteAt r k := by
  rw [h k hk,byteAt]

theorem At.read16 (h : At bytes p r) {k : Nat} (hk : k+1<r.length) :
    (read16 (p+k)).value bytes=word16 r k := by
  simp only [Firmware.read16,value_bind,value_byte,value_pure,word16]
  rw [h.byte (by omega : k<r.length),Nat.add_assoc,h.byte hk]

theorem At.read32 (h : At bytes p r) {k : Nat} (hk : k+3<r.length) :
    (read32 (p+k)).value bytes=word32 r k := by
  simp only [Firmware.read32,value_bind,value_pure,word32]
  rw [h.read16 (by omega),Nat.add_assoc,h.read16 (by omega)]

theorem At.read64 (h : At bytes p r) {k : Nat} (hk : k+7<r.length) :
    (read64 (p+k)).value bytes=word64 r k := by
  simp only [Firmware.read64,value_bind,value_pure,word64]
  rw [h.read32 (by omega),Nat.add_assoc,h.read32 (by omega)]

/-- What one type of record adds when its parser agrees with `add` on it. -/
def Agrees (r : List UInt8) (c : Contents) (a f : Nat) (result : Option ParseState) : Prop :=
  ∀ s, result=some s ↔ WellFormed r ∧ (c.add r).Consistent ∧ s=(c.add r).state a f

theorem agrees_none (h : ¬ (WellFormed r ∧ (c.add r).Consistent)) : Agrees r c a f none := by
  intro s
  constructor
  · intro hs
    cases hs
  · rintro ⟨hw,hc,-⟩
    exact absurd ⟨hw,hc⟩ h

theorem parseLapic_agrees (h : c.Consistent) (hat : At bytes p r) (hsize : byteAt r 1=r.length)
    (htwo : 2≤r.length) (htype : byteAt r 0=0) :
    Agrees r c a f ((parseLapic p r.length (c.state a f)).value bytes) := by
  have hw : WellFormed r ↔ 8≤r.length := by
    simp [wellFormed_iff,htype,hsize,htwo,minimumSize,ioapicOf,overrideOf,ioNmiOf,localNmiOf]
  unfold parseLapic
  by_cases hshort : r.length<8
  · rw [if_pos hshort]
    apply agrees_none
    rw [hw]
    omega
  intro s
  have hadd : c.add r = { c with cpus := c.cpus ++ [⟨byteAt r 2,byteAt r 3,word32 r 4⟩] } := by
    simp [Contents.add,htype,cpuOf,ioapicOf,overrideOf,ioNmiOf,localNmiOf,addressOf]
  rw [if_neg hshort,hadd,hw]
  simp only [value_bind,value_byte,value_pure,hat.byte (by omega : 2<r.length),
    hat.byte (by omega : 3<r.length),hat.read32 (by omega : 4+3<r.length)]
  rw [withCpu_iff h]
  exact ⟨fun hs => ⟨by omega,hs⟩,fun hs => hs.2⟩

theorem parseX2apic_agrees (h : c.Consistent) (hat : At bytes p r)
    (hsize : byteAt r 1=r.length) (htwo : 2≤r.length) (htype : byteAt r 0=9) :
    Agrees r c a f ((parseX2apic p r.length (c.state a f)).value bytes) := by
  have hw : WellFormed r ↔ 16≤r.length := by
    simp [wellFormed_iff,htype,hsize,htwo,minimumSize,ioapicOf,overrideOf,ioNmiOf,localNmiOf]
  unfold parseX2apic
  by_cases hshort : r.length<16
  · rw [if_pos hshort]
    apply agrees_none
    rw [hw]
    omega
  intro s
  have hadd : c.add r = { c with cpus := c.cpus ++ [⟨word32 r 12,word32 r 4,word32 r 8⟩] } := by
    simp [Contents.add,htype,cpuOf,ioapicOf,overrideOf,ioNmiOf,localNmiOf,addressOf]
  rw [if_neg hshort,hadd,hw]
  simp only [value_bind,value_pure,hat.read32 (by omega : 12+3<r.length),
    hat.read32 (by omega : 4+3<r.length),hat.read32 (by omega : 8+3<r.length)]
  rw [withCpu_iff h]
  exact ⟨fun hs => ⟨by omega,hs⟩,fun hs => hs.2⟩

theorem parseIoapic_agrees (h : c.Consistent) (hat : At bytes p r)
    (hsize : byteAt r 1=r.length) (htwo : 2≤r.length) (htype : byteAt r 0=1) :
    Agrees r c a f ((parseIoapic p r.length (c.state a f)).value bytes) := by
  have hw : WellFormed r ↔ 12≤r.length ∧ word32 r 4≠0 ∧ word32 r 4%4096=0 := by
    simp [wellFormed_iff,htype,hsize,htwo,minimumSize,ioapicOf,overrideOf,ioNmiOf,localNmiOf]
  have hadd : c.add r =
      { c with ioapics := c.ioapics ++ [⟨word32 r 4,word32 r 8,byteAt r 2⟩] } := by
    simp [Contents.add,htype,cpuOf,ioapicOf,overrideOf,ioNmiOf,localNmiOf,addressOf]
  have hioapics : (c.state a f).topology.ioapics=c.ioapics := rfl
  unfold parseIoapic
  rw [hioapics]
  by_cases hbad : r.length<12 ∨ c.ioapics.length=acpiMaxIoapics
  · rw [if_pos hbad]
    apply agrees_none
    rw [hw,hadd,consistent_ioapic h]
    rintro ⟨⟨hlength,-⟩,hroom,-⟩
    rcases hbad with hshort | hfull
    · omega
    · exact hroom hfull
  rw [not_or] at hbad
  intro s
  rw [if_neg (by tauto),hadd,hw]
  simp only [value_bind,value_byte,value_pure,hat.byte (by omega : 2<r.length),
    hat.read32 (by omega : 4+3<r.length),hat.read32 (by omega : 8+3<r.length)]
  rw [addIoapic_iff h hbad.2]
  exact ⟨fun hs => ⟨⟨by omega,hs.1⟩,hs.2⟩,fun hs => ⟨hs.1.2,hs.2⟩⟩

theorem parseOverride_agrees (h : c.Consistent) (hat : At bytes p r)
    (hsize : byteAt r 1=r.length) (htwo : 2≤r.length) (htype : byteAt r 0=2) :
    Agrees r c a f ((parseOverride p r.length (c.state a f)).value bytes) := by
  have hw : WellFormed r ↔ 10≤r.length ∧ byteAt r 2=0 ∧ byteAt r 3<16 ∧
      acpiInterruptFlagsValid (word16 r 8)=true := by
    simp [wellFormed_iff,htype,hsize,htwo,minimumSize,ioapicOf,overrideOf,ioNmiOf,localNmiOf]
  have hadd : c.add r = { c with
      overrides := c.overrides ++ [⟨byteAt r 2,byteAt r 3,word32 r 4,word16 r 8⟩] } := by
    simp [Contents.add,htype,cpuOf,ioapicOf,overrideOf,ioNmiOf,localNmiOf,addressOf]
  unfold parseOverride
  by_cases hshort : r.length<10
  · rw [if_pos hshort]
    apply agrees_none
    rw [hw]
    omega
  intro s
  rw [if_neg hshort,hadd,hw]
  simp only [value_bind,value_byte,value_pure,hat.byte (by omega : 2<r.length),
    hat.byte (by omega : 3<r.length),hat.read32 (by omega : 4+3<r.length),
    hat.read16 (by omega : 8+1<r.length)]
  rw [addOverride_iff h]
  exact ⟨fun hs => ⟨⟨by omega,hs.1⟩,hs.2⟩,fun hs => ⟨hs.1.2,hs.2⟩⟩

theorem parseIoNmi_agrees (h : c.Consistent) (hat : At bytes p r)
    (hsize : byteAt r 1=r.length) (htwo : 2≤r.length) (htype : byteAt r 0=3) :
    Agrees r c a f ((parseIoNmi p r.length (c.state a f)).value bytes) := by
  have hw : WellFormed r ↔ 8≤r.length ∧ acpiInterruptFlagsValid (word16 r 2)=true := by
    simp [wellFormed_iff,htype,hsize,htwo,minimumSize,ioapicOf,overrideOf,ioNmiOf,localNmiOf]
  have hadd : c.add r = { c with ioNmis := c.ioNmis ++ [⟨word32 r 4,word16 r 2⟩] } := by
    simp [Contents.add,htype,cpuOf,ioapicOf,overrideOf,ioNmiOf,localNmiOf,addressOf]
  have hnmis : (c.state a f).topology.ioNmis=c.ioNmis := rfl
  unfold parseIoNmi
  rw [hnmis]
  by_cases hbad : r.length<8 ∨ c.ioNmis.length=acpiMaxNmis
  · rw [if_pos hbad]
    apply agrees_none
    rw [hw,hadd,consistent_ioNmi h]
    rintro ⟨⟨hlength,-⟩,hroom⟩
    rcases hbad with hshort | hfull
    · omega
    · exact hroom hfull
  rw [not_or] at hbad
  intro s
  rw [if_neg (by tauto),hadd,hw]
  simp only [value_bind,value_pure,hat.read16 (by omega : 2+1<r.length),
    hat.read32 (by omega : 4+3<r.length)]
  rw [addIoNmi_iff h hbad.2]
  exact ⟨fun hs => ⟨⟨by omega,hs.1⟩,hs.2⟩,fun hs => ⟨hs.1.2,hs.2⟩⟩

/-- The two forms of a local NMI differ in where their fields are. -/
theorem localNmi_agrees (h : c.Consistent) {least : Nat} {n : AcpiLocalNmi}
    (hw : WellFormed r ↔ least≤r.length ∧ n.lint≤1 ∧
      acpiInterruptFlagsValid n.flags=true)
    (hadd : c.add r = { c with localNmis := c.localNmis ++ [n] }) {result : Option ParseState}
    (hresult : least≤r.length →
      result=addLocalNmi (c.state a f) n.uid n.flags n.lint n.allCpus) :
    Agrees r c a f
      (if r.length<least ∨ c.localNmis.length=acpiMaxNmis then none else result) := by
  by_cases hbad : r.length<least ∨ c.localNmis.length=acpiMaxNmis
  · rw [if_pos hbad]
    apply agrees_none
    rw [hw,hadd,consistent_localNmi h]
    rintro ⟨⟨hlength,-⟩,hroom⟩
    rcases hbad with hshort | hfull
    · omega
    · exact hroom hfull
  rw [not_or] at hbad
  intro s
  rw [if_neg (by tauto),hresult (by omega),hadd,hw,addLocalNmi_iff h hbad.2]
  exact ⟨fun hs => ⟨⟨by omega,hs.1⟩,hs.2⟩,fun hs => ⟨hs.1.2,hs.2⟩⟩

theorem parseLocalNmi_agrees (h : c.Consistent) (hat : At bytes p r)
    (hsize : byteAt r 1=r.length) (htwo : 2≤r.length) (htype : byteAt r 0=4) :
    Agrees r c a f ((parseLocalNmi p r.length (c.state a f)).value bytes) := by
  have hnmis : (c.state a f).topology.localNmis=c.localNmis := rfl
  unfold parseLocalNmi
  rw [hnmis,value_ite]
  apply localNmi_agrees (n := ⟨byteAt r 2,word16 r 3,byteAt r 5,byteAt r 2 == 255⟩) h
  · simp [wellFormed_iff,htype,hsize,htwo,minimumSize,ioapicOf,overrideOf,ioNmiOf,localNmiOf]
  · simp [Contents.add,htype,cpuOf,ioapicOf,overrideOf,ioNmiOf,localNmiOf,addressOf]
  intro hlength
  have huid := hat.byte (by omega : 2<r.length)
  have hall : (bytes (p+2) == 255)=(byteAt r 2 == 255) := by
    rw [← huid,Bool.eq_iff_iff,beq_iff_eq,beq_iff_eq]
    exact ⟨fun heq => by rw [heq]; rfl,fun heq => UInt8.toNat_inj.mp heq⟩
  simp only [value_bind,value_byte,value_pure,huid,hall,
    hat.byte (by omega : 5<r.length),hat.read16 (by omega : 3+1<r.length)]

theorem parseX2apicNmi_agrees (h : c.Consistent) (hat : At bytes p r)
    (hsize : byteAt r 1=r.length) (htwo : 2≤r.length) (htype : byteAt r 0=10) :
    Agrees r c a f ((parseX2apicNmi p r.length (c.state a f)).value bytes) := by
  have hnmis : (c.state a f).topology.localNmis=c.localNmis := rfl
  unfold parseX2apicNmi
  rw [hnmis,value_ite]
  apply localNmi_agrees
    (n := ⟨word32 r 4,word16 r 2,byteAt r 8,word32 r 4 == 2 ^ 32-1⟩) h
  · simp [wellFormed_iff,htype,hsize,htwo,minimumSize,ioapicOf,overrideOf,ioNmiOf,localNmiOf]
  · simp [Contents.add,htype,cpuOf,ioapicOf,overrideOf,ioNmiOf,localNmiOf,addressOf]
  · intro hlength
    simp only [value_bind,value_byte,value_pure,hat.byte (by omega : 8<r.length),
      hat.read16 (by omega : 2+1<r.length),hat.read32 (by omega : 4+3<r.length)]

theorem parseAddressOverride_agrees (h : c.Consistent) (hat : At bytes p r)
    (hsize : byteAt r 1=r.length) (htwo : 2≤r.length) (htype : byteAt r 0=5) :
    Agrees r c a f ((parseAddressOverride p r.length (c.state a f)).value bytes) := by
  have hw : WellFormed r ↔ 12≤r.length := by
    simp [wellFormed_iff,htype,hsize,htwo,minimumSize,ioapicOf,overrideOf,ioNmiOf,localNmiOf]
  have hadd : c.add r = { c with addresses := c.addresses ++ [word64 r 4] } := by
    simp [Contents.add,htype,cpuOf,ioapicOf,overrideOf,ioNmiOf,localNmiOf,addressOf]
  have hseen : (c.state a f).addressOverride=true ↔ c.addresses≠[] := by
    simp [Contents.state]
  unfold parseAddressOverride
  by_cases hbad : r.length<12 ∨ (c.state a f).addressOverride=true
  · rw [if_pos hbad]
    apply agrees_none
    rw [hw,hadd,consistent_address h]
    rintro ⟨hlength,hnil⟩
    rcases hbad with hshort | hsome
    · omega
    · exact hseen.mp hsome hnil
  rw [if_neg hbad]
  rw [not_or,hseen,not_not] at hbad
  intro s
  rw [hadd,hw,← addAddress_iff h]
  simp only [value_bind,value_pure,hat.read64 (by omega : 4+7<r.length),Option.some.injEq]
  exact ⟨fun hs => ⟨by omega,hbad.2,hs.symm⟩,fun hs => hs.2.2.symm⟩

theorem skip_agrees (h : c.Consistent) (hsize : byteAt r 1=r.length) (htwo : 2≤r.length)
    (htype : byteAt r 0 ∉ [0,1,2,3,4,5,9,10]) : Agrees r c a f (some (c.state a f)) := by
  simp only [mem_cons,not_mem_nil,or_false,not_or] at htype
  obtain ⟨h0,h1,h2,h3,h4,h5,h9,h10⟩ := htype
  have hw : WellFormed r := by
    simp [wellFormed_iff,hsize,htwo,minimumSize,ioapicOf,overrideOf,ioNmiOf,localNmiOf,
      h0,h1,h2,h3,h4,h5,h9,h10]
  have hadd : c.add r=c := by
    simp [Contents.add,cpuOf,ioapicOf,overrideOf,ioNmiOf,localNmiOf,addressOf,
      h0,h1,h2,h3,h4,h5,h9,h10]
  intro s
  rw [hadd,Option.some.injEq]
  exact ⟨fun hs => ⟨hw,h,hs.symm⟩,fun hs => hs.2.2.symm⟩

/-- A record is taken exactly if it is well formed and fits the ones before it. -/
theorem parseRecord_agrees (h : c.Consistent) (hat : At bytes p r)
    (hsize : byteAt r 1=r.length) (htwo : 2≤r.length) :
    Agrees r c a f ((parseRecord p r.length (c.state a f)).value bytes) := by
  have hfirst : (bytes p).toNat=byteAt r 0 := hat.byte (by omega : 0<r.length)
  have htype (n : UInt8) : bytes p=n ↔ byteAt r 0=n.toNat := by
    rw [← hfirst,UInt8.toNat_inj]
  simp only [parseRecord,value_bind,value_byte,value_ite,value_pure,htype]
  split_ifs with h0 h1 h2 h3 h4 h5 h9 h10
  · exact parseLapic_agrees h hat hsize htwo h0
  · exact parseIoapic_agrees h hat hsize htwo h1
  · exact parseOverride_agrees h hat hsize htwo h2
  · exact parseIoNmi_agrees h hat hsize htwo h3
  · exact parseLocalNmi_agrees h hat hsize htwo h4
  · exact parseAddressOverride_agrees h hat hsize htwo h5
  · exact parseX2apic_agrees h hat hsize htwo h9
  · exact parseX2apicNmi_agrees h hat hsize htwo h10
  · apply skip_agrees h hsize htwo
    simp only [mem_cons,not_mem_nil,or_false,not_or]
    exact ⟨h0,h1,h2,h3,h4,h5,h9,h10⟩

end Step

end ConeOS.Firmware
