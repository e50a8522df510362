import Mathlib.Data.List.Nodup
import Mathlib.Data.List.Range
import ConeOS.Firmware.Madt

namespace ConeOS.Cpu

open ConeOS.Firmware List

def mmioBase : Nat := 0xFFFFB00000000000

/-- An entry of `controllers`; where its registers are mapped follows from its index. -/
structure Ioapic where
  gsiBase : Nat
  pinCount : Nat
  deriving DecidableEq

/-- The static variables of apic.c: whether `lapic` is set, the controllers that
`controller_count` counts, and the addresses at which `vmm_map_page` mapped registers. -/
structure Apic where
  lapic : Bool
  controllers : List Ioapic
  mapped : List Nat

def Apic.start : Apic := ⟨false,[],[]⟩

/-- What is found out on the way: whether a page can be mapped for a slot, and the version
registers of the local APIC and of each IOAPIC. -/
structure Registers where
  mapPage : Nat → Bool
  lapicVersion : Nat
  ioVersion : Nat → Nat

/-- The index of a controller and one of its pins; `none` stands for `controller == NULL`. -/
abbrev Route := Option (Nat × Nat)

section Model

/-- The loop of `route_gsi`, from the controller `i` on. -/
def routeFrom (gsi : Nat) : Nat → List Ioapic → Route
  | _, [] => none
  | i, io :: rest =>
    if io.gsiBase≤gsi ∧ gsi-io.gsiBase < io.pinCount then some (i,gsi-io.gsiBase)
    else routeFrom gsi (i+1) rest

def routeGsi (controllers : List Ioapic) (gsi : Nat) : Route := routeFrom gsi 0 controllers

variable (hw : Registers)

def mapRegisters (physical slot : Nat) (s : Apic) : Bool × Apic :=
  if physical=0 ∨ physical%4096≠0 ∨ 2 ^ 52≤physical then (false,s)
  else if hw.mapPage slot then
    (true, { s with mapped := s.mapped ++ [mmioBase+slot*4096] })
  else (false,s)

/-- The addresses that `release_mappings` unmaps, and what it leaves. -/
def releaseMappings (s : Apic) : List Nat × Apic :=
  ((List.range s.controllers.length).map (fun i => mmioBase+(i+1)*4096) ++
      if s.lapic then [mmioBase] else [],
    { s with lapic := false, controllers := [] })

def lapicRejected (version : Nat) : Bool :=
  version == 2 ^ 32-1 || decide (version%256<0x10) || decide (version/2 ^ 16%256<3)

def ioapicRejected (version : Nat) (io : Ioapic) : Bool :=
  version == 2 ^ 32-1 || version%256 == 0 || decide (120 < io.pinCount) ||
    decide (2 ^ 32-1-(io.pinCount-1) < io.gsiBase)

def overlaps (io other : Ioapic) : Bool :=
  decide (io.gsiBase<other.gsiBase+other.pinCount) &&
    decide (other.gsiBase < io.gsiBase+io.pinCount)

/-- The loop of `prepare_controllers` over the IOAPICs from the one with index `i` on. -/
def addControllers : Nat → List AcpiIoapic → Apic → Bool × Apic
  | _, [], s => (true,s)
  | i, a :: rest, s =>
    match mapRegisters hw a.address (i+1) s with
    | (false,s) => (false,s)
    | (true,s) =>
      let io : Ioapic := ⟨a.gsiBase,hw.ioVersion i/2 ^ 16%256+1⟩
      let added := { s with controllers := s.controllers ++ [io] }
      if ioapicRejected (hw.ioVersion i) io || s.controllers.any (overlaps io) then (false,added)
      else addControllers (i+1) rest added

/-- `routes[i]` once the loop over the ISA interrupts has set it. -/
def isaRoute (controllers : List Ioapic) (t : AcpiTopology) (i : Nat) : Route :=
  if i=2 then none else routeGsi controllers (t.isaIrqs i).gsi

/-- That loop returns at an interrupt that goes where an earlier one goes. -/
def isaClash (controllers : List Ioapic) (t : AcpiTopology) : Bool :=
  (List.range 16).any fun i => (isaRoute controllers t i).isSome &&
    (List.range i).any fun j => (isaRoute controllers t j).isSome &&
      (t.isaIrqs i).gsi == (t.isaIrqs j).gsi

/-- The loop over the NMIs, with those it has passed. -/
def nmisAccepted (controllers : List Ioapic) (t : AcpiTopology) :
    List AcpiIoNmi → List AcpiIoNmi → Bool
  | _, [] => true
  | before, nmi :: rest =>
    (routeGsi controllers nmi.gsi).isSome &&
      !((List.range 16).any fun j => (isaRoute controllers t j).isSome &&
        (t.isaIrqs j).gsi == nmi.gsi) &&
      !(before.any fun n => n.gsi == nmi.gsi) &&
      nmisAccepted controllers t (before ++ [nmi]) rest

def routesAccepted (controllers : List Ioapic) (t : AcpiTopology) : Bool :=
  !isaClash controllers t && (isaRoute controllers t 0).isSome &&
    (isaRoute controllers t 1).isSome && nmisAccepted controllers t [] t.ioNmis

def prepareControllers (t : AcpiTopology) (s : Apic) : Bool × Apic :=
  match mapRegisters hw t.lapicAddress 0 s with
  | (false,s) => (false, { s with lapic := false })
  | (true,s) =>
    let s := { s with lapic := true }
    if lapicRejected hw.lapicVersion then (false,s)
    else
      match addControllers hw 0 t.ioapics s with
      | (false,s) => (false,s)
      | (true,s) => (routesAccepted s.controllers t,s)

end Model

section Mapping

variable {physical slot : Nat}

/-- The registers that are mapped are those of the local APIC and of the controllers. -/
def MapsCounted (s : Apic) : Prop :=
  s.mapped=(if s.lapic then [mmioBase] else []) ++
    (List.range s.controllers.length).map (fun i => mmioBase+(i+1)*4096)

variable {hw : Registers} {s s' : Apic}

theorem mapRegisters_some (h : mapRegisters hw physical slot s=(true,s')) :
    s' = { s with mapped := s.mapped ++ [mmioBase+slot*4096] } := by
  rw [mapRegisters] at h
  split_ifs at h <;> cases h
  rfl

theorem mapRegisters_none
    (h : mapRegisters hw physical slot s=(false,s')) : s'=s := by
  rw [mapRegisters] at h
  split_ifs at h <;> cases h <;> rfl

theorem MapsCounted.add (h : MapsCounted s) (io : Ioapic) :
    MapsCounted { s with
      mapped := s.mapped ++ [mmioBase+(s.controllers.length+1)*4096]
      controllers := s.controllers ++ [io] } := by
  rw [MapsCounted] at h ⊢
  rw [h,length_append,length_singleton,range_succ,map_append,append_assoc]
  rfl

theorem addControllers_counted {ioapics : List AcpiIoapic} {i : Nat} (h : MapsCounted s)
    (hi : i=s.controllers.length) : MapsCounted (addControllers hw i ioapics s).2 := by
  induction ioapics generalizing i s with
  | nil => exact h
  | cons a rest ih =>
    rw [addControllers]
    rcases hmap : mapRegisters hw a.address (i+1) s with ⟨_ | _,s'⟩
    · rw [mapRegisters_none hmap]
      exact h
    have hs := mapRegisters_some hmap
    rw [hi] at hs
    subst hs
    have hadded := h.add ⟨a.gsiBase,hw.ioVersion i/2 ^ 16%256+1⟩
    dsimp only
    split
    · exact hadded
    · refine ih hadded ?_
      rw [length_append,hi]
      rfl

theorem prepareControllers_counted (hw : Registers) (t : AcpiTopology) :
    MapsCounted (prepareControllers hw t Apic.start).2 := by
  rw [prepareControllers]
  rcases hmap : mapRegisters hw t.lapicAddress 0 Apic.start with ⟨_ | _,s⟩
  · rw [mapRegisters_none hmap]
    rfl
  have hs := mapRegisters_some hmap
  subst hs
  dsimp only
  split
  · rfl
  have hcounted : MapsCounted (addControllers hw 0 t.ioapics
      { lapic := true
        controllers := Apic.start.controllers
        mapped := Apic.start.mapped ++ [mmioBase+0*4096] }).2 :=
    addControllers_counted rfl rfl
  rcases hadd : addControllers hw 0 t.ioapics _ with ⟨_ | _,s⟩
  · rw [hadd] at hcounted
    exact hcounted
  · rw [hadd] at hcounted
    exact hcounted

theorem MapsCounted.released (h : MapsCounted s) :
    (releaseMappings s).1.Perm s.mapped ∧ s.mapped.Nodup := by
  refine ⟨?_,?_⟩
  · rw [h]
    exact perm_append_comm
  have hpages : ((List.range s.controllers.length).map
      (fun i => mmioBase+(i+1)*4096)).Nodup := by
    refine List.Nodup.map ?_ nodup_range
    intro i j hij
    dsimp only at hij
    omega
  rw [h]
  cases s.lapic with
  | false => exact hpages
  | true =>
    refine nodup_cons.mpr ⟨?_,hpages⟩
    intro hmem
    obtain ⟨i,-,hi⟩ := mem_map.mp hmem
    omega

end Mapping

section Routing

variable {gsi i : Nat} {route : Nat × Nat}

/-- The pin of the controller serves the interrupt. -/
def Serves (controllers : List Ioapic) (gsi : Nat) (route : Nat × Nat) : Prop :=
  ∃ io, controllers[route.1]? = some io ∧ route.2 < io.pinCount ∧ io.gsiBase+route.2=gsi

variable {controllers : List Ioapic} {t : AcpiTopology}

theorem routeFrom_serves
    (h : routeFrom gsi i controllers=some route) :
    i≤route.1 ∧ Serves controllers gsi (route.1-i,route.2) := by
  induction controllers generalizing i with
  | nil => cases h
  | cons io rest ih =>
    rw [routeFrom] at h
    by_cases hio : io.gsiBase≤gsi ∧ gsi-io.gsiBase < io.pinCount
    · rw [if_pos hio] at h
      cases h
      refine ⟨le_rfl,io,?_,hio.2,Nat.add_sub_cancel' hio.1⟩
      rw [Nat.sub_self,List.getElem?_cons_zero]
    rw [if_neg hio] at h
    obtain ⟨hle,io',hget,hpin,hgsi⟩ := ih h
    have hnext : route.1-i=route.1-(i+1)+1 := by omega
    refine ⟨by omega,io',?_,hpin,hgsi⟩
    rw [hnext,List.getElem?_cons_succ]
    exact hget

theorem routeGsi_serves
    (h : routeGsi controllers gsi=some route) : Serves controllers gsi route :=
  (routeFrom_serves h).2

theorem routeGsi_inj {gsi' : Nat} (h : (routeGsi controllers gsi).isSome)
    (heq : routeGsi controllers gsi=routeGsi controllers gsi') : gsi=gsi' := by
  obtain ⟨route,hroute⟩ := Option.isSome_iff_exists.mp h
  obtain ⟨io,hio,-,hgsi⟩ := routeGsi_serves hroute
  rw [heq] at hroute
  obtain ⟨io',hio',-,hgsi'⟩ := routeGsi_serves hroute
  rw [hio] at hio'
  cases hio'
  omega

theorem isaRoute_some (h : (isaRoute controllers t i).isSome) :
    i≠2 ∧ isaRoute controllers t i=routeGsi controllers (t.isaIrqs i).gsi := by
  by_cases hi : i=2
  · rw [isaRoute,if_pos hi] at h
    cases h
  · exact ⟨hi,if_neg hi⟩

theorem isaClash_of_eq {j : Nat} (hi : i<16) (hji : j < i)
    (h : (isaRoute controllers t i).isSome)
    (heq : isaRoute controllers t i=isaRoute controllers t j) : isaClash controllers t=true := by
  have hj : (isaRoute controllers t j).isSome := by rwa [heq] at h
  have hgsi : (t.isaIrqs i).gsi=(t.isaIrqs j).gsi := by
    rw [(isaRoute_some h).2,(isaRoute_some hj).2] at heq
    rw [(isaRoute_some h).2] at h
    exact routeGsi_inj h heq
  refine any_eq_true.mpr ⟨i,mem_range.mpr hi,?_⟩
  rw [h,Bool.true_and]
  refine any_eq_true.mpr ⟨j,mem_range.mpr hji,?_⟩
  rw [hj,hgsi,beq_self_eq_true]
  rfl

/-- What the loop over the NMIs has tested when it comes to its end. -/
theorem nmisAccepted_iff {before rest : List AcpiIoNmi} :
    nmisAccepted controllers t before rest=true ↔
      (∀ nmi ∈ rest, (routeGsi controllers nmi.gsi).isSome ∧
        ∀ i<16, (isaRoute controllers t i).isSome → (t.isaIrqs i).gsi≠nmi.gsi) ∧
      (∀ n ∈ before, ∀ nmi ∈ rest, n.gsi≠nmi.gsi) ∧
      rest.Pairwise (fun a b => a.gsi≠b.gsi) := by
  induction rest generalizing before with
  | nil => simp [nmisAccepted]
  | cons nmi rest ih =>
    rw [nmisAccepted,Bool.and_eq_true,ih]
    simp only [Bool.and_eq_true,Bool.not_eq_true',any_eq_false,mem_range,beq_iff_eq,
      not_and,mem_append,mem_singleton,forall_mem_cons,pairwise_cons]
    constructor
    · rintro ⟨⟨⟨hroute,hisa⟩,hbefore⟩,hrest,hnew,hpair⟩
      refine ⟨⟨⟨hroute,hisa⟩,hrest⟩,?_,fun b hb => hnew nmi (.inr rfl) b hb,hpair⟩
      exact fun n hn => ⟨hbefore n hn,hnew n (.inl hn)⟩
    rintro ⟨⟨⟨hroute,hisa⟩,hrest⟩,hbefore,hhead,hpair⟩
    refine ⟨⟨⟨hroute,hisa⟩,fun n hn => (hbefore n hn).1⟩,hrest,?_,hpair⟩
    rintro n (hn | rfl)
    · exact (hbefore n hn).2
    · exact hhead

/-- The ranges of the controllers lie apart and below the end of the numbers. -/
structure RangesApart (controllers : List Ioapic) : Prop where
  apart : controllers.Pairwise fun a b =>
    a.gsiBase+a.pinCount≤b.gsiBase ∨ b.gsiBase+b.pinCount≤a.gsiBase
  below : ∀ io ∈ controllers, io.gsiBase+io.pinCount≤2 ^ 32

theorem RangesApart.add (h : RangesApart controllers) {version : Nat} {io : Ioapic}
    (hpins : 0 < io.pinCount) (haccepted : ioapicRejected version io=false)
    (hno : controllers.any (overlaps io)=false) : RangesApart (controllers ++ [io]) := by
  simp only [ioapicRejected,Bool.or_eq_false_iff,decide_eq_false_iff_not] at haccepted
  simp only [any_eq_false,overlaps,Bool.and_eq_true,decide_eq_true_eq] at hno
  refine ⟨pairwise_append.mpr ⟨h.apart,pairwise_singleton _ _,?_⟩,?_⟩
  · intro a ha b hb
    rw [mem_singleton.mp hb]
    have hapart := hno a ha
    omega
  intro a ha
  rcases mem_append.mp ha with ha | ha
  · exact h.below a ha
  · rw [mem_singleton.mp ha]
    omega

theorem addControllers_apart {hw : Registers} {ioapics : List AcpiIoapic} {s s' : Apic}
    (h : RangesApart s.controllers) (hadd : addControllers hw i ioapics s=(true,s')) :
    RangesApart s'.controllers := by
  induction ioapics generalizing i s with
  | nil =>
    cases hadd
    exact h
  | cons a rest ih =>
    rw [addControllers] at hadd
    rcases hmap : mapRegisters hw a.address (i+1) s with ⟨_ | _,s₁⟩
    · rw [hmap] at hadd
      cases hadd
    rw [hmap] at hadd
    have hs := mapRegisters_some hmap
    subst hs
    dsimp only at hadd
    split at hadd
    · cases hadd
    next haccepted =>
      rw [Bool.not_eq_true,Bool.or_eq_false_iff] at haccepted
      exact ih (h.add (Nat.succ_pos _) haccepted.1 haccepted.2) hadd

/-- What `prepare_controllers` has made sure of when it returns 1. -/
structure Routed (controllers : List Ioapic) (t : AcpiTopology) : Prop where
  ranges : RangesApart controllers
  served : ∀ i<16, ∀ route, isaRoute controllers t i=some route →
    i≠2 ∧ Serves controllers (t.isaIrqs i).gsi route
  distinct : ∀ i<16, ∀ j<16, (isaRoute controllers t i).isSome →
    isaRoute controllers t i=isaRoute controllers t j → i=j
  nmis : ∀ nmi ∈ t.ioNmis, (routeGsi controllers nmi.gsi).isSome ∧
    ∀ i<16, isaRoute controllers t i≠routeGsi controllers nmi.gsi
  nmisApart : t.ioNmis.Pairwise fun a b =>
    routeGsi controllers a.gsi≠routeGsi controllers b.gsi
  timer : (isaRoute controllers t 0).isSome
  keyboard : (isaRoute controllers t 1).isSome

theorem Routed.of_accepted (h : RangesApart controllers) (haccepted : routesAccepted controllers t) :
    Routed controllers t := by
  simp only [routesAccepted,Bool.and_eq_true,Bool.not_eq_true'] at haccepted
  obtain ⟨⟨⟨hclash,h0⟩,h1⟩,hnmis⟩ := haccepted
  obtain ⟨hrouted,-,hapart⟩ := nmisAccepted_iff.mp hnmis
  have hearlier : ∀ i<16, ∀ j < i, (isaRoute controllers t i).isSome →
      isaRoute controllers t i≠isaRoute controllers t j := by
    intro i hi j hji hsome heq
    rw [isaClash_of_eq hi hji hsome heq] at hclash
    cases hclash
  refine ⟨h,?_,?_,?_,?_,h0,h1⟩
  · intro i _ route hroute
    obtain ⟨hi,heq⟩ := isaRoute_some (Option.isSome_iff_exists.mpr ⟨route,hroute⟩)
    exact ⟨hi,routeGsi_serves (heq.symm.trans hroute)⟩
  · intro i hi j hj hsome heq
    rcases Nat.lt_trichotomy i j with hij | hij | hij
    · rw [heq] at hsome
      exact absurd heq.symm (hearlier j hj i hij hsome)
    · exact hij
    · exact absurd heq (hearlier i hi j hij hsome)
  · intro nmi hnmi
    obtain ⟨hsome,hisa⟩ := hrouted nmi hnmi
    refine ⟨hsome,?_⟩
    intro i hi heq
    have hroute : (isaRoute controllers t i).isSome := by rwa [heq]
    rw [(isaRoute_some hroute).2] at heq
    exact hisa i hi hroute (routeGsi_inj hsome heq.symm).symm
  · refine List.Pairwise.imp_of_mem ?_ hapart
    intro a b ha _ hne heq
    exact hne (routeGsi_inj (hrouted a ha).1 heq)

end Routing

/-- Whatever the topology and the registers say: controllers that are accepted route every
interrupt to a pin of its own, and after a refusal every register page is given back. -/
theorem interrupt_routing_injective (hw : Registers) (t : AcpiTopology) :
    ((prepareControllers hw t Apic.start).1=true →
      Routed (prepareControllers hw t Apic.start).2.controllers t) ∧
    ((prepareControllers hw t Apic.start).1=false →
      (releaseMappings (prepareControllers hw t Apic.start).2).1.Perm
        (prepareControllers hw t Apic.start).2.mapped ∧
      (prepareControllers hw t Apic.start).2.mapped.Nodup) := by
  refine ⟨?_,fun _ => (prepareControllers_counted hw t).released⟩
  rw [prepareControllers]
  rcases hmap : mapRegisters hw t.lapicAddress 0 Apic.start with ⟨_ | _,s⟩
  · exact fun h => (nomatch h)
  have hs := mapRegisters_some hmap
  subst hs
  dsimp only
  split
  · exact fun h => (nomatch h)
  rcases hadd : addControllers hw 0 t.ioapics _ with ⟨_ | _,s⟩
  · exact fun h => (nomatch h)
  · intro haccepted
    refine Routed.of_accepted (addControllers_apart ?_ hadd) haccepted
    exact ⟨List.Pairwise.nil,fun io hio => (nomatch hio)⟩

/-- A machine with one IOAPIC of 24 pins and no overrides. -/
def plainTopology : AcpiTopology :=
  { startTopology 0xFEE00000 1 with ioapics := [⟨0xFEC00000,0,0⟩], ioNmis := [⟨20,0⟩] }

def plainRegisters : Registers := ⟨fun _ => true,0x50014,fun _ => 0x170020⟩

theorem plain_topology_routed :
    Routed (prepareControllers plainRegisters plainTopology Apic.start).2.controllers
      plainTopology :=
  (interrupt_routing_injective plainRegisters plainTopology).1 (by decide +kernel)

end ConeOS.Cpu
