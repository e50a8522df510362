import ConeOS.Process.Lifecycle

namespace ConeOS.Process

open ConeOS.Library ConeOS.Memory Kernel Function List

abbrev Mappings : Type := Fin maxMmapRegions → MmapRegion

def MmapRegion.covers (region : MmapRegion) (address : Nat) : Bool :=
  region.used && decide (region.start≤address) && decide (address<region.stop)

/-- No address lies in two regions. -/
def DisjointRegions (mappings : Mappings) : Prop :=
  ∀ i j address, (mappings i).covers address=true → (mappings j).covers address=true → i=j

/-- Some region holds the address with this protection. -/
def Protects (mappings : Mappings) (address : Nat) (protection : BitVec 64) : Prop :=
  ∃ i, (mappings i).covers address=true ∧ (mappings i).protection=protection

/-- The protection of the region that `mapping_covering` finds. -/
def regionProtection (process : ProcessRecord) (address : Nat) : Option (BitVec 64) :=
  (mappingCovering process address).map (fun i => (process.mappings i).protection)

/-- The range lies strictly inside the region. -/
def MmapRegion.Encloses (region : MmapRegion) (address stop : Nat) : Prop :=
  region.used=true ∧ region.start<address ∧ stop<region.stop

section Regions

variable {process : ProcessRecord} {address stop : Nat} {region : MmapRegion} {a : Nat}

theorem MmapRegion.covers_iff : region.covers a=true ↔
    region.used=true ∧ region.start≤a ∧ a<region.stop := by
  simp only [MmapRegion.covers,Bool.and_eq_true,decide_eq_true_eq,and_assoc]

theorem mappingCovering_some {i : Fin maxMmapRegions}
    (h : mappingCovering process a=some i) : (process.mappings i).covers a=true :=
  firstIndex_some h

theorem mappingCovering_none (h : mappingCovering process a=none)
    (i : Fin maxMmapRegions) : (process.mappings i).covers a=false :=
  firstIndex_none h i

theorem regionProtection_iff (hd : DisjointRegions process.mappings) (a : Nat)
    (p : BitVec 64) : regionProtection process a=some p ↔ Protects process.mappings a p := by
  rw [regionProtection]
  cases hc : mappingCovering process a with
  | none =>
    simp only [Option.map_none,reduceCtorEq,false_iff]
    intro h
    obtain ⟨i,hi,-⟩ := h
    rw [mappingCovering_none hc i] at hi
    cases hi
  | some i =>
    have hi := mappingCovering_some hc
    simp only [Option.map_some,Option.some.injEq]
    constructor
    · intro hp
      exact ⟨i,hi,hp⟩
    · intro h
      obtain ⟨j,hj,hp⟩ := h
      rw [hd i j a hi hj,hp]

/-- The first loop of `process_munmap` succeeds when every byte is in some region. -/
theorem rangeCovered_iff (process : ProcessRecord) (stop cursor : Nat) :
    rangeCovered process stop cursor=true ↔
      ∀ a, cursor≤a → a<stop → ∃ i, (process.mappings i).covers a=true := by
  fun_induction rangeCovered process stop cursor with
  | case1 cursor hle =>
    simp only [true_iff]
    intro a h1 h2
    omega
  | case2 cursor hlt hc =>
    simp only [Bool.false_eq_true,false_iff]
    intro hall
    obtain ⟨i,hi⟩ := hall cursor le_rfl (by omega)
    rw [mappingCovering_none hc i] at hi
    cases hi
  | case3 cursor hlt i hc ih =>
    have hi := mappingCovering_some hc
    rw [ih]
    obtain ⟨hused,hlow,hhigh⟩ := MmapRegion.covers_iff.mp hi
    constructor
    · intro hall a h1 h2
      by_cases ha : a<(process.mappings i).stop
      · exact ⟨i,MmapRegion.covers_iff.mpr ⟨hused,by omega,ha⟩⟩
      · exact hall a (by omega) h2
    · intro hall a h1 h2
      exact hall a (by omega) h2

theorem splits_iff (process : ProcessRecord) (address stop : Nat) :
    splits process address stop=true ↔ ∃ i, (process.mappings i).Encloses address stop := by
  simp only [splits,any_eq_true,mem_finRange,true_and,Bool.and_eq_true,
    decide_eq_true_eq,MmapRegion.Encloses,and_assoc]

theorem MmapRegion.Encloses.covers (h : region.Encloses address stop)
    (hrange : address<stop) : region.covers address=true :=
  MmapRegion.covers_iff.mpr ⟨h.1,h.2.1.le,by have := h.2.2; omega⟩

end Regions

section Cut

variable {address stop : Nat} {slot : Option (Fin maxMmapRegions)} {mappings : Mappings}
  {old : Mappings}

/-- `region'` is what is left of `region` without the range. -/
structure Trimmed (address stop : Nat) (region region' : MmapRegion) : Prop where
  protection : region'.protection=region.protection
  unused : region.used=false → region'.used=false
  covers : ∀ a, region'.covers a=true ↔
    region.covers a=true ∧ ¬ (address≤a ∧ a<stop)

/-- The slot for a second half is free as long as some region encloses the range. -/
def SplitReady (slot : Option (Fin maxMmapRegions)) (address stop : Nat)
    (mappings : Mappings) : Prop :=
  ∀ i, (mappings i).Encloses address stop → ∃ j, slot=some j ∧ (mappings j).used=false

/-- After the cutting loop has visited the slots of `visited`. -/
structure Cutting (slot : Option (Fin maxMmapRegions)) (address stop : Nat) (old : Mappings)
    (visited : List (Fin maxMmapRegions)) (mappings : Mappings) : Prop where
  disjoint : DisjointRegions mappings
  ready : SplitReady slot address stop mappings
  outside : ∀ a p, ¬ (address≤a ∧ a<stop) → (Protects mappings a p ↔ Protects old a p)
  inside : ∀ i ∈ visited, ∀ a, (mappings i).covers a=true → ¬ (address≤a ∧ a<stop)

theorem Cutting.trim {visited : List (Fin maxMmapRegions)}
    (h : Cutting slot address stop old visited mappings) (hrange : address<stop)
    {i : Fin maxMmapRegions} {region : MmapRegion}
    (ht : Trimmed address stop (mappings i) region) :
    Cutting slot address stop old (i :: visited) (update mappings i region) := by
  have hcovers (k : Fin maxMmapRegions) (a : Nat) :
      (update mappings i region k).covers a=true → (mappings k).covers a=true := by
    intro hk
    by_cases hki : k=i
    · subst hki
      rw [update_self,ht.covers] at hk
      exact hk.1
    · rwa [update_of_ne hki] at hk
  refine ⟨?_,?_,?_,?_⟩
  · intro j k a hj hk
    exact h.disjoint j k a (hcovers j a hj) (hcovers k a hk)
  · intro k hk
    have hki : k≠i := by
      intro hx
      subst hx
      rw [update_self] at hk
      exact ((ht.covers address).mp (hk.covers hrange)).2 ⟨le_rfl,hrange⟩
    rw [update_of_ne hki] at hk
    obtain ⟨j,hj,hfree⟩ := h.ready k hk
    refine ⟨j,hj,?_⟩
    by_cases hji : j=i
    · subst hji
      rw [update_self]
      exact ht.unused hfree
    · rwa [update_of_ne hji]
  · intro a p ha
    rw [← h.outside a p ha]
    apply exists_congr
    intro k
    by_cases hki : k=i
    · subst hki
      rw [update_self,ht.covers,ht.protection,and_iff_left ha]
    · rw [update_of_ne hki]
  · intro k hk a hcov
    by_cases hki : k=i
    · subst hki
      rw [update_self,ht.covers] at hcov
      exact hcov.2
    · rw [update_of_ne hki] at hcov
      exact h.inside k ((mem_cons.mp hk).resolve_left hki) a hcov

/-- The region around the range becomes two; its second half goes to the free slot, which
lies behind the range when the loop visits it later. -/
theorem Cutting.divide {visited : List (Fin maxMmapRegions)}
    (h : Cutting slot address stop old visited mappings) (hrange : address<stop)
    {i j : Fin maxMmapRegions} (hi : (mappings i).Encloses address stop)
    (hj : (mappings j).used=false) :
    Cutting slot address stop old (i :: visited)
      (update (update mappings j { mappings i with start := stop }) i
        { mappings i with stop := address }) := by
  have ⟨hused,hlow,hhigh⟩ := hi
  have hji : j≠i := by
    intro hx
    rw [hx,hused] at hj
    cases hj
  set mappings' := update (update mappings j { mappings i with start := stop }) i
    { mappings i with stop := address } with hnew
  have hat : mappings' i = { mappings i with stop := address } := update_self ..
  have hback : mappings' j = { mappings i with start := stop } := by
    rw [hnew,update_of_ne hji,update_self]
  have hrest (k : Fin maxMmapRegions) (hki : k≠i) (hkj : k≠j) : mappings' k=mappings k := by
    rw [hnew,update_of_ne hki,update_of_ne hkj]
  -- both halves come from the region at `i`, everything else stays
  let origin (k : Fin maxMmapRegions) : Fin maxMmapRegions := if k=j then i else k
  have hself (k : Fin maxMmapRegions) (hkj : k≠j) : origin k=k := if_neg hkj
  have hslot : origin j=i := if_pos rfl
  have hprot (k : Fin maxMmapRegions) :
      (mappings' k).protection=(mappings (origin k)).protection := by
    by_cases hkj : k=j
    · rw [hkj,hback,hslot]
    rw [hself k hkj]
    by_cases hki : k=i
    · rw [hki,hat]
    · rw [hrest k hki hkj]
  have hfrom (k : Fin maxMmapRegions) (a : Nat) (hk : (mappings' k).covers a=true) :
      (mappings (origin k)).covers a=true ∧ (k=i → a<address) ∧ (k=j → stop≤a) := by
    by_cases hkj : k=j
    · rw [hkj,hback,MmapRegion.covers_iff] at hk
      obtain ⟨-,h1,h2⟩ := hk
      dsimp only at h1 h2
      rw [hkj,hslot]
      exact ⟨MmapRegion.covers_iff.mpr ⟨hused,by omega,h2⟩,fun hx => absurd hx hji,fun _ => h1⟩
    rw [hself k hkj]
    by_cases hki : k=i
    · rw [hki,hat,MmapRegion.covers_iff] at hk
      obtain ⟨-,h1,h2⟩ := hk
      dsimp only at h1 h2
      rw [hki]
      exact ⟨MmapRegion.covers_iff.mpr ⟨hused,h1,by omega⟩,fun _ => h2,fun hx => absurd hx hji.symm⟩
    · rw [hrest k hki hkj] at hk
      exact ⟨hk,fun hx => absurd hx hki,fun hx => absurd hx hkj⟩
  refine ⟨?_,?_,?_,?_⟩
  · intro k l a hk hl
    obtain ⟨hk',hki,hkj⟩ := hfrom k a hk
    obtain ⟨hl',hli,hlj⟩ := hfrom l a hl
    have hsame := h.disjoint _ _ a hk' hl'
    by_cases hk0 : k=j <;> by_cases hl0 : l=j
    · rw [hk0,hl0]
    · rw [hk0,hslot,hself l hl0] at hsame
      have := hkj hk0
      have := hli hsame.symm
      omega
    · rw [hl0,hslot,hself k hk0] at hsame
      have := hlj hl0
      have := hki hsame
      omega
    · rwa [hself k hk0,hself l hl0] at hsame
  · -- no region holds the start of the range any more
    intro k hk
    obtain ⟨hk',hki,hkj⟩ := hfrom k address (hk.covers hrange)
    have hsame := h.disjoint _ _ address hk' (hi.covers hrange)
    by_cases hk0 : k=j
    · have := hkj hk0
      omega
    · rw [hself k hk0] at hsame
      exact absurd (hki hsame) (lt_irrefl _)
  · intro a p ha
    rw [← h.outside a p ha]
    constructor
    · intro hx
      obtain ⟨k,hk,hp⟩ := hx
      exact ⟨origin k,(hfrom k a hk).1,by rw [← hprot,hp]⟩
    intro hx
    obtain ⟨k,hk,hp⟩ := hx
    by_cases hki : k=i
    · subst hki
      obtain ⟨-,h1,h2⟩ := MmapRegion.covers_iff.mp hk
      by_cases hlt : a<address
      · refine ⟨k,?_,by rw [hat]; exact hp⟩
        rw [hat,MmapRegion.covers_iff]
        exact ⟨hused,h1,hlt⟩
      · refine ⟨j,?_,by rw [hback]; exact hp⟩
        rw [hback,MmapRegion.covers_iff]
        exact ⟨hused,Nat.le_of_not_lt (fun hx => ha ⟨by omega,hx⟩),h2⟩
    · have hkj : k≠j := by
        intro hx
        rw [hx,MmapRegion.covers_iff,hj] at hk
        cases hk.1
      exact ⟨k,by rw [hrest k hki hkj]; exact hk,by rw [hrest k hki hkj]; exact hp⟩
  · intro k hk a hcov
    obtain ⟨hk',hki,hkj⟩ := hfrom k a hcov
    by_cases hk0 : k=i
    · have := hki hk0
      omega
    by_cases hk1 : k=j
    · have := hkj hk1
      omega
    · rw [hself k hk1] at hk'
      exact h.inside k ((mem_cons.mp hk).resolve_left hk0) a hk'

/-- One round of the cutting loop. -/
theorem Cutting.step {visited : List (Fin maxMmapRegions)}
    (h : Cutting slot address stop old visited mappings) (hrange : address<stop)
    (i : Fin maxMmapRegions) :
    Cutting slot address stop old (i :: visited) (cutRegion slot address stop mappings i) := by
  have htrim (region : MmapRegion) (ht : Trimmed address stop (mappings i) region) :=
    h.trim hrange ht
  rw [cutRegion]
  dsimp only
  split_ifs with hskip hall hhead htail
  · have hself := htrim (mappings i) ⟨rfl,fun hx => hx,fun a => ?_⟩
    · rwa [update_eq_self] at hself
    simp only [Bool.or_eq_true,Bool.not_eq_true',decide_eq_true_eq] at hskip
    rw [MmapRegion.covers_iff]
    constructor
    · intro hx
      refine ⟨hx,fun hin => ?_⟩
      rcases hskip with (hunused | hbefore) | hbehind
      · rw [hunused] at hx
        cases hx.1
      · omega
      · omega
    · exact fun hx => hx.1
  all_goals
    simp only [Bool.or_eq_true,Bool.not_eq_true',decide_eq_true_eq,not_or,
      Bool.not_eq_false] at hskip
    obtain ⟨⟨hused,hbefore⟩,hbehind⟩ := hskip
  · refine htrim _ ⟨rfl,fun _ => rfl,fun a => ?_⟩
    rw [MmapRegion.covers_iff,MmapRegion.covers_iff]
    simp only [Bool.false_eq_true,false_and,false_iff]
    omega
  · refine htrim _ ⟨rfl,fun hx => hx,fun a => ?_⟩
    rw [MmapRegion.covers_iff,MmapRegion.covers_iff]
    dsimp only
    simp only [hused,true_and]
    omega
  · refine htrim _ ⟨rfl,fun hx => hx,fun a => ?_⟩
    rw [MmapRegion.covers_iff,MmapRegion.covers_iff]
    dsimp only
    simp only [hused,true_and]
    omega
  have hi : (mappings i).Encloses address stop := ⟨hused,by omega,by omega⟩
  obtain ⟨j,hj,hfree⟩ := h.ready i hi
  rw [hj,Nat.max_eq_left hi.2.1.le,Nat.min_eq_left hi.2.2.le]
  rw [hj] at h
  exact h.divide hrange hi hfree

theorem Cutting.loop (hrange : address<stop) (is : List (Fin maxMmapRegions))
    {visited : List (Fin maxMmapRegions)} {mappings : Mappings}
    (h : Cutting slot address stop old visited mappings) :
    Cutting slot address stop old (is.reverse ++ visited)
      (is.foldl (cutRegion slot address stop) mappings) := by
  induction is generalizing visited mappings with
  | nil => exact h
  | cons i is ih =>
    rw [foldl_cons,reverse_cons,append_assoc]
    exact ih (h.step hrange i)

/-- What the cutting loop leaves is the old regions without the range. -/
theorem cutRegions_spec {process : ProcessRecord} (hd : DisjointRegions process.mappings)
    (hrange : address<stop) (hready : SplitReady slot address stop process.mappings) :
    DisjointRegions ((List.finRange maxMmapRegions).foldl (cutRegion slot address stop)
      process.mappings) ∧
    ∀ a committed, regionProtection { process with
        mappings := (List.finRange maxMmapRegions).foldl (cutRegion slot address stop)
          process.mappings
        committedPages := committed } a =
      if address≤a ∧ a<stop then none else regionProtection process a := by
  have hstart : Cutting slot address stop process.mappings [] process.mappings :=
    ⟨hd,hready,fun _ _ _ => Iff.rfl,fun i hi => absurd hi not_mem_nil⟩
  have hend := hstart.loop hrange (List.finRange maxMmapRegions)
  refine ⟨hend.disjoint,fun a committed => ?_⟩
  apply Option.ext
  intro p
  generalize (List.finRange maxMmapRegions).foldl (cutRegion slot address stop)
    process.mappings=mappings at hend
  rw [regionProtection_iff hend.disjoint]
  split_ifs with ha
  · simp only [iff_false]
    intro hx
    obtain ⟨i,hi,-⟩ := hx
    have hvisited : i ∈ (List.finRange maxMmapRegions).reverse ++ [] :=
      mem_append_left _ (mem_reverse.mpr (mem_finRange i))
    exact hend.inside i hvisited a hi ha
  · rw [hend.outside a p ha,regionProtection_iff hd]

end Cut

section Munmap

variable {s : Kernel} {current address length : Nat} {i : Fin maxProcesses}
  {process : ProcessRecord} {space : VmmSpace}

/-- The arguments for which `process_munmap` has work to do. -/
structure Unmappable (process : ProcessRecord) (address length : Nat) : Prop where
  aligned : address%4096=0
  low : mmapAddressStart≤address
  nonempty : 0<length
  high : address+alignUpPage length ≤ mmapAddressLimit
  covered : ∀ a, address≤a → a<address+alignUpPage length →
    ∃ i, (process.mappings i).covers a=true
  slot : (∃ i, (process.mappings i).Encloses address (address+alignUpPage length)) →
    ∃ j, (process.mappings j).used=false

/-- The kernel `s'` after the range was taken out of the record at `i` and its space. -/
structure RangeRemoved (s s' : Kernel) (i : Fin maxProcesses) (space : VmmSpace)
    (address stop : Nat) : Prop where
  tasks : s'.tasks=s.tasks
  others : ∀ j, j≠i → s'.processes j=s.processes j
  regions : ∀ a, regionProtection (s'.processes i) a =
    if address≤a ∧ a<stop then none else regionProtection (s.processes i) a
  disjoint : DisjointRegions (s'.processes i).mappings
  committed : (s'.processes i).committedPages =
    uncommit (s.processes i).committedPages ((stop-address)/4096)
  absent : ∀ a, address≤a → a<stop → vmmSpaceQuery space a s'.machine=none
  untouched : ∀ u ∈ s.tasks, u.ownsSpace=true → ∀ a, a<2 ^ 47 →
    ¬ (u.space=space ∧ address≤a ∧ a<stop) →
      vmmSpaceQuery u.space a s'.machine=vmmSpaceQuery u.space a s.machine ∧
        visibleIn u.space s'.machine a=visibleIn u.space s.machine a
  kernel : SameKernel s.machine s'.machine

theorem findFreeMappingSlot_ready {stop : Nat}
    (h : (∃ i, (process.mappings i).Encloses address stop) →
      ∃ j, (process.mappings j).used=false) :
    SplitReady (findFreeMappingSlot process) address stop process.mappings := by
  intro k hk
  obtain ⟨j,hj⟩ := h ⟨k,hk⟩
  cases hslot : findFreeMappingSlot process with
  | none =>
    have hfull := firstIndex_none hslot j
    rw [hj] at hfull
    cases hfull
  | some l =>
    have hfree := firstIndex_some hslot
    exact ⟨l,rfl,by simpa using hfree⟩

/-- `process_munmap` either does nothing or removes the pages and cuts the regions. -/
theorem processMunmap_eq (hcur : s.currentProcess current=some (i,process,space))
    (address length : Nat) :
    (Unmappable process address length ∧ processMunmap current address length s =
      (0, (s.setMachine (unmapPages space (alignUpPage length/4096) address s.machine)).setProcess
        i { process with
          mappings := (List.finRange maxMmapRegions).foldl
            (cutRegion (findFreeMappingSlot process) address (address+alignUpPage length))
            process.mappings
          committedPages := uncommit process.committedPages (alignUpPage length/4096) })) ∨
    (¬ Unmappable process address length ∧ ∃ e, e<0 ∧
      processMunmap current address length s=(e,s)) := by
  rw [processMunmap,hcur]
  by_cases hlen : length=0 ∨ length > 2 ^ 64-1-4095
  · right
    have hnone : roundedMappingLength length=none := if_pos hlen
    refine ⟨fun hx => ?_,syscallEinval,by decide,by rw [hnone]⟩
    have h1 := hx.nonempty
    have h2 := hx.high
    unfold alignUpPage mmapAddressLimit at h2
    omega
  have hsome : roundedMappingLength length=some (alignUpPage length) := if_neg hlen
  rw [hsome]
  dsimp only
  by_cases hargs : address%4096≠0 ∨ address < mmapAddressStart ∨
      address ≥ mmapAddressLimit ∨ alignUpPage length > mmapAddressLimit-address
  · right
    rw [if_pos hargs]
    refine ⟨fun hx => ?_,syscallEinval,by decide,rfl⟩
    have h1 := hx.aligned
    have h2 := hx.low
    have h3 := hx.high
    have h4 : 0<alignUpPage length := by
      unfold alignUpPage
      omega
    omega
  rw [if_neg hargs]
  by_cases hcov : rangeCovered process (address+alignUpPage length) address=true
  · rw [hcov]
    simp only [Bool.not_true,Bool.false_eq_true,if_false]
    rw [rangeCovered_iff] at hcov
    by_cases hfull : (splits process address (address+alignUpPage length) &&
        (findFreeMappingSlot process).isNone)=true
    · right
      rw [if_pos hfull]
      refine ⟨fun hx => ?_,syscallEnomem,by decide,rfl⟩
      rw [Bool.and_eq_true,splits_iff,Option.isNone_iff_eq_none] at hfull
      obtain ⟨k,hk⟩ := hfull.1
      obtain ⟨j,hj,-⟩ := findFreeMappingSlot_ready hx.slot k hk
      rw [hfull.2] at hj
      cases hj
    · left
      rw [if_neg hfull]
      refine ⟨⟨by omega,by omega,by omega,by omega,hcov,fun hx => ?_⟩,rfl⟩
      rw [Bool.and_eq_true,splits_iff,Option.isNone_iff_eq_none] at hfull
      cases hslot : findFreeMappingSlot process with
      | none => exact absurd ⟨hx,hslot⟩ hfull
      | some j => exact ⟨j,by simpa using firstIndex_some hslot⟩
  · right
    rw [Bool.not_eq_true] at hcov
    rw [hcov]
    refine ⟨fun hx => ?_,syscallEinval,by decide,rfl⟩
    have hall := (rangeCovered_iff process _ address).mpr hx.covered
    rw [hcov] at hall
    cases hall

/-- Unmapping the pages and cutting the regions takes the range out. -/
theorem Unmappable.removed (hs : WellKept s)
    (hcur : s.currentProcess current=some (i,process,space))
    (hd : DisjointRegions process.mappings) (h : Unmappable process address length) :
    RangeRemoved s ((s.setMachine
        (unmapPages space (alignUpPage length/4096) address s.machine)).setProcess i
      { process with
        mappings := (List.finRange maxMmapRegions).foldl
          (cutRegion (findFreeMappingSlot process) address (address+alignUpPage length))
          process.mappings
        committedPages := uncommit process.committedPages (alignUpPage length/4096) }) i space
      address (address+alignUpPage length) := by
  obtain ⟨hprocess,-,-,-⟩ := currentProcess_some hcur
  obtain ⟨t,ht,-,-,-,ho,rfl⟩ := hs.book.current hcur
  have hr := Paired.root_mem ht ho
  have hpages : alignUpPage length/4096*4096=alignUpPage length := by
    unfold alignUpPage
    omega
  have hpos : 0<alignUpPage length := by
    have := h.nonempty
    unfold alignUpPage
    omega
  have hlimit : address+alignUpPage length≤2 ^ 47 := by
    have := h.high
    unfold mmapAddressLimit at this
    omega
  have haligned := h.aligned
  have hin := hs.paired.inStep
  obtain ⟨hin',hun⟩ := unmapPages_spec hin hr (alignUpPage length/4096) (by omega) haligned
  obtain ⟨hdis,hregions⟩ := cutRegions_spec hd (by omega : address<address+alignUpPage length)
    (findFreeMappingSlot_ready h.slot)
  generalize (List.finRange maxMmapRegions).foldl (cutRegion (findFreeMappingSlot process) address
    (address+alignUpPage length)) process.mappings=mappings at hdis hregions ⊢
  refine ⟨rfl,fun j hj => update_of_ne hj ..,?_,?_,?_,?_,?_,hun.kernel⟩
  · intro a
    rw [setProcess_self,← hprocess]
    exact hregions a _
  · rw [setProcess_self]
    exact hdis
  · rw [setProcess_self,← hprocess,Nat.add_sub_cancel_left]
  · intro a h1 h2
    show vmmSpaceQuery t.space a (unmapPages t.space _ address s.machine)=none
    rw [hin'.query hr (by omega),hun.leaf hr (vpn_lt (by omega)),if_pos ⟨rfl,by omega,by omega⟩]
    rfl
  intro u hu huo a ha hout
  have hru := Paired.root_mem hu huo
  have hother : ¬ (u.space.pml4Physical/4096=t.space.pml4Physical/4096 ∧
      address/4096≤a/4096 ∧
        a/4096<address/4096+alignUpPage length/4096) := by
    intro hx
    have hut := ownedRoots_inj hs.paired.nodup ht hu ho huo hx.1
    exact hout ⟨by rw [hut],by omega,by omega⟩
  have hleaf := hun.leaf hru (vpn_lt ha)
  have hpage := hun.page hru (vpn_lt ha)
  rw [if_neg hother] at hleaf hpage
  constructor
  · show vmmSpaceQuery u.space a (unmapPages t.space _ address s.machine)=_
    rw [hin'.query hru ha,hin.query hru ha,hleaf]
  · show visibleIn u.space (unmapPages t.space _ address s.machine) a=_
    rw [visibleIn_eq hin' hru,visibleIn_eq hin hru,userByte,userByte,hpage]

/-- `process_munmap` removes exactly the requested range, or changes nothing. -/
theorem munmap_removes_range (s : Kernel) (hs : WellKept s) (current : Nat)
    (i : Fin maxProcesses) (process : ProcessRecord) (space : VmmSpace)
    (hcur : s.currentProcess current=some (i,process,space))
    (hd : DisjointRegions process.mappings) (address length : Nat) :
    ((processMunmap current address length s).1=0 ↔ Unmappable process address length) ∧
    ((processMunmap current address length s).1=0 →
      RangeRemoved s (processMunmap current address length s).2 i space address
        (address+alignUpPage length)) ∧
    ((processMunmap current address length s).1≠0 →
      (processMunmap current address length s).2=s) := by
  obtain ⟨hvalid,heq⟩ | ⟨hbad,e,he,heq⟩ := processMunmap_eq hcur address length
  · rw [heq]
    exact ⟨iff_of_true rfl hvalid,fun _ => hvalid.removed hs hcur hd,fun hx => absurd rfl hx⟩
  · rw [heq]
    exact ⟨iff_of_false (by omega) hbad,fun hx => by omega,fun _ => rfl⟩

/-- The sample program after it mapped three pages. -/
def sampleMapped : Kernel :=
  (Kernel.run [.spawn 0 idleLaunch [0x69] [] (some sampleElf),
    .mmap 1 0 12288 (protRead ||| protWrite) (mapPrivate ||| mapAnonymous)]
    (Kernel.boot (sampleMachine 0))).1

theorem sampleMapped_disjoint : DisjointRegions (sampleMapped.processes sampleRecord).mappings := by
  have hone : ∀ i, ((sampleMapped.processes sampleRecord).mappings i).used=true → i.val=0 := by
    decide +kernel
  intro i j a hi hj
  exact Fin.ext ((hone i (MmapRegion.covers_iff.mp hi).1).trans
    (hone j (MmapRegion.covers_iff.mp hj).1).symm)

/-- The middle page is given back: its region is split. -/
theorem middle_page_removed :
    RangeRemoved sampleMapped (processMunmap 1 (mmapAddressStart+4096) 1 sampleMapped).2
      sampleRecord ⟨2*4096,false⟩ (mmapAddressStart+4096)
      (mmapAddressStart+4096+alignUpPage 1) := by
  have hcur := currentProcess_eq
    (by decide +kernel : sampleMapped.findProcess 1=some sampleRecord) (by decide +kernel)
    (by decide +kernel : (sampleMapped.processes sampleRecord).space=some ⟨2*4096,false⟩)
  have hdone : (processMunmap 1 (mmapAddressStart+4096) 1 sampleMapped).1=0 := by
    decide +kernel
  exact (munmap_removes_range sampleMapped ((sampleMachine_booted 0).run _) 1 sampleRecord _ _ hcur
    sampleMapped_disjoint _ 1).2.1 hdone

end Munmap

end ConeOS.Process
