import ConeOS.Memory.KernelMap

namespace ConeOS.Memory

open ConeOS.Library Machine Function

/-- An address of the kernel's half. -/
abbrev UpperAddress := { address : Nat // 0xFFFF800000000000≤address }

/-- The machine and the spaces created so far. -/
structure Spaces where
  machine : Machine
  spaces : List VmmSpace

/-- What happens to the kernel's half. The pages the heap grows by are taken, mapped and
written by calls of their own before the `create` whose `kmalloc` asked for them. -/
inductive KernelCall
  | take
  | give (page : Nat)
  | write (page offset : Nat) (byte : UInt8)
  | create (allocated : Bool)
  | map (address : UpperAddress) (physical : Nat) (flags : BitVec 64)
  | unmap (address : UpperAddress)

def KernelCall.run (s : Spaces) : KernelCall → Spaces
  | .take => { s with machine := KernelStep.take.run s.machine }
  | .give page => { s with machine := (KernelStep.give page).run s.machine }
  | .write page offset byte =>
    { s with machine := (KernelStep.write page offset byte).run s.machine }
  | .create allocated =>
    match vmmSpaceCreate ⟨allocated,[]⟩ s.machine with
    | (some space,m) => ⟨m,space :: s.spaces⟩
    | (none,m) => { s with machine := m }
  | .map address physical flags =>
    { s with machine := (vmmMapPage address physical flags s.machine).2 }
  | .unmap address => { s with machine := (vmmUnmapPage address s.machine).2 }

def runCalls (calls : List KernelCall) (s : Spaces) : Spaces := calls.foldl KernelCall.run s

/-- The call does not change where the top level leads while there are spaces that copied it: a
page is mapped below an entry that is there, unless its arguments are refused or the three
tables can not be had; and the page unmapped is not the last one below its entry. -/
def KernelCall.keepsRoot (s : Spaces) : KernelCall → Bool
  | .map address physical flags =>
    s.spaces.isEmpty ||
      !mapArgumentsValid ⟨s.machine.kernelRoot,true⟩ address physical flags ||
      !hasPages 3 s.machine.pmm ||
      present (s.machine.entry (s.machine.kernelRoot/4096) (rootIndex address))
  | .unmap address => s.spaces.isEmpty || !lastPage address s.machine
  | _ => true

def keepRoot : List KernelCall → Spaces → Bool
  | [], _ => true
  | call :: calls, s => call.keepsRoot s && keepRoot calls (call.run s)

/-- Every space translates the kernel's half as the kernel's own space does, and no entry of the
top level leads to a table that was given back. -/
structure HalvesAgree (s : Spaces) : Prop where
  query : ∀ space ∈ s.spaces, ∀ address, 0xFFFF800000000000≤address →
    vmmSpaceQuery space address s.machine =
      vmmSpaceQuery ⟨s.machine.kernelRoot,true⟩ address s.machine
  tables : ∀ space ∈ ⟨s.machine.kernelRoot,true⟩ :: s.spaces, ∀ i, 256 ≤ i → i<512 →
    present (s.machine.entry (space.pml4Physical/4096) i)=true →
    huge (s.machine.entry (space.pml4Physical/4096) i)=false →
    s.machine.pmm.bitmap (addressPage (s.machine.entry (space.pml4Physical/4096) i))=true

/-- A page of the heap is in use and no table. -/
structure HeapPage (m : Machine) (place : Nat → Option Place) (p : Nat) : Prop where
  inUse : m.pmm.bitmap p=true
  address : p<2 ^ 40
  placed : place p=none
  notRoot : p≠m.kernelRoot/4096

/-- The tables the kernel starts with hang each in one place, and the pages of its heap are not
among them. -/
def KernelReady (m : Machine) : Prop :=
  PmmInv m.pmm ∧ ∃ place, KernelTables m place ∧ ∀ p, m.kernelPages p=true → HeapPage m place p

/-- A space's top level is a page of its own, and its upper half leads where the kernel's
does. -/
structure SharesHalf (m : Machine) (place : Nat → Option Place) (root : Nat) : Prop where
  inUse : m.pmm.bitmap root=true
  placed : place root=none
  notRoot : root≠m.kernelRoot/4096
  notKernel : m.kernelPages root=false
  agree : ∀ i, 256 ≤ i → Agree (m.entry root i) (m.entry (m.kernelRoot/4096) i)

/-- The invariant of the run. -/
structure SharedHalf (place : Nat → Option Place) (s : Spaces) : Prop where
  pmm : PmmInv s.machine.pmm
  tables : KernelTables s.machine place
  heap : ∀ p, s.machine.kernelPages p=true → HeapPage s.machine place p
  shares : ∀ space ∈ s.spaces, SharesHalf s.machine place (space.pml4Physical/4096)

section Queries

variable {m : Machine} {place : Nat → Option Place}

theorem queryFrom_agree {i root root' : Nat} (h : Agree (m.entry root i) (m.entry root' i))
    (address : Nat) (is : List Nat) (effective noExecute : BitVec 64) :
    queryFrom m address (i :: is) root effective noExecute =
      queryFrom m address (i :: is) root' effective noExecute := by
  unfold queryFrom
  rcases h with h | ⟨h,h'⟩
  · rw [h]
  · simp only [h,h',Bool.not_false,Bool.true_or,if_true]

theorem SharesHalf.query {space : VmmSpace}
    (h : SharesHalf m place (space.pml4Physical/4096)) {address : Nat}
    (haddr : 0xFFFF800000000000≤address) :
    vmmSpaceQuery space address m=vmmSpaceQuery ⟨m.kernelRoot,true⟩ address m := by
  unfold vmmSpaceQuery
  split
  · rfl
  · rename_i hcanonical
    exact queryFrom_agree (h.agree _ (rootIndex_upper haddr (by simpa using hcanonical))) _ _ _ _

theorem SharedHalf.halvesAgree {s : Spaces} (h : SharedHalf place s) : HalvesAgree s := by
  have hroot (i : Nat) (hi : 256 ≤ i) (hlt : i<512)
      (hpres : present (s.machine.entry (s.machine.kernelRoot/4096) i)=true)
      (hhuge : huge (s.machine.entry (s.machine.kernelRoot/4096) i)=false) :
      s.machine.pmm.bitmap
        (addressPage (s.machine.entry (s.machine.kernelRoot/4096) i))=true :=
    (h.tables.inUse (h.tables.child (l := 3) (Or.inl ⟨rfl,rfl⟩) (by omega) hlt (fun _ => hi)
      hpres hhuge)).1
  refine ⟨fun space hs address haddr => (h.shares space hs).query haddr,?_⟩
  intro space hs i hi hlt hpres hhuge
  rcases List.mem_cons.mp hs with rfl | hs
  · exact hroot i hi hlt hpres hhuge
  rcases (h.shares space hs).agree i hi with heq | ⟨hno,-⟩
  · rw [heq] at hpres hhuge ⊢
    exact hroot i hi hlt hpres hhuge
  · rw [hno] at hpres
    cases hpres

end Queries

section Steps

variable {place : Nat → Option Place} {s : Spaces} {m' : Machine}

/-- Something happens outside the tables and the spaces. -/
theorem SharedHalf.frame (h : SharedHalf place s) (hpmm : PmmInv m'.pmm)
    (hroot : m'.kernelRoot=s.machine.kernelRoot)
    (hkeep : ∀ p, s.machine.pmm.bitmap p=true → s.machine.kernelPages p=false →
      m'.mem p=s.machine.mem p ∧ m'.pmm.bitmap p=true ∧ m'.kernelPages p=false)
    (hheap : ∀ p, m'.kernelPages p=true → m'.pmm.bitmap p=true ∧
      (s.machine.kernelPages p=true ∨ s.machine.pmm.bitmap p=false)) :
    SharedHalf place { s with machine := m' } := by
  have hrootKernel : s.machine.kernelPages (s.machine.kernelRoot/4096)=false := by
    by_contra hk
    exact (h.heap _ (by simpa using hk)).notRoot rfl
  have htable (q l : Nat) (hq : IsTable s.machine place q l) :
      m'.mem q=s.machine.mem q ∧ m'.pmm.bitmap q=true ∧ m'.kernelPages q=false := by
    refine hkeep q (hq.inUse h.tables) ?_
    rcases hq with ⟨rfl,-⟩ | ⟨t,i,hq⟩
    · exact hrootKernel
    · by_contra hk
      rw [(h.heap q (by simpa using hk)).placed] at hq
      cases hq
  have hrootKept := htable _ 4 (Or.inl ⟨rfl,rfl⟩)
  refine ⟨hpmm,h.tables.congr hroot (fun q l hq => ⟨(htable q l hq).1,(htable q l hq).2.1⟩),?_,?_⟩
  · intro p hp
    obtain ⟨hb,hold | hfree⟩ := hheap p hp
    · obtain ⟨-,haddr,hplace,hne⟩ := h.heap p hold
      refine ⟨hb,haddr,hplace,?_⟩
      show p≠m'.kernelRoot/4096
      rw [hroot]
      exact hne
    refine ⟨hb,h.pmm.free_lt hfree,?_,?_⟩
    · by_contra hplace
      obtain ⟨pl,hpl⟩ := Option.ne_none_iff_exists'.mp hplace
      rw [(h.tables.inUse hpl).1] at hfree
      cases hfree
    · show p≠m'.kernelRoot/4096
      rw [hroot]
      exact Ne.symm (Spares.ne hfree h.tables.rootInUse)
  · intro space hs
    obtain ⟨hb,hplace,hne,hkernel,hagree⟩ := h.shares space hs
    obtain ⟨hmem,hb',hk'⟩ := hkeep _ hb hkernel
    refine ⟨hb',hplace,?_,hk',?_⟩
    · show _ ≠ m'.kernelRoot/4096
      rw [hroot]
      exact hne
    intro i hi
    show Agree (m'.entry _ i) (m'.entry (m'.kernelRoot/4096) i)
    rw [hroot,entry,entry,hmem,hrootKept.1]
    exact hagree i hi

theorem SharedHalf.take (h : SharedHalf place s) :
    SharedHalf place (KernelCall.take.run s) := by
  show SharedHalf place { s with machine := KernelStep.take.run s.machine }
  unfold KernelStep.run allocPage
  rcases alloc_cases 0 h.pmm with hnone | ⟨c,hc,-,hsome⟩
  · rw [hnone]
    exact h
  rw [hsome]
  have hne {p : Nat} (hb : s.machine.pmm.bitmap p=true) : p≠c := Spares.ne hc hb
  refine h.frame (h.pmm.takePage hc).1 rfl ?_ ?_
  · intro p hb hk
    refine ⟨rfl,by simp [takePage,hne hb,hb],?_⟩
    show update s.machine.kernelPages c true p=false
    rw [update_of_ne (hne hb)]
    exact hk
  intro p hp
  by_cases hpc : p=c
  · subst hpc
    exact ⟨by simp [takePage],Or.inr hc⟩
  · have hk : s.machine.kernelPages p=true := by
      simpa [update_of_ne hpc] using hp
    exact ⟨by simp [takePage,hpc,(h.heap p hk).inUse],Or.inl hk⟩

theorem SharedHalf.give (h : SharedHalf place s) (page : Nat) :
    SharedHalf place ((KernelCall.give page).run s) := by
  show SharedHalf place { s with machine := (KernelStep.give page).run s.machine }
  dsimp only [KernelStep.run]
  split_ifs with hpage
  · refine h.frame (h.pmm.freePage (h.heap page hpage).address) rfl ?_ ?_
    · intro p hb hk
      have hne : p≠page := by
        rintro rfl
        rw [hk] at hpage
        cases hpage
      refine ⟨rfl,(freePage_bitmap_of_ne _ hne).trans hb,?_⟩
      show update s.machine.kernelPages page false p=false
      rw [update_of_ne hne]
      exact hk
    · intro p hp
      have hne : p≠page := by
        rintro rfl
        simp at hp
      have hk : s.machine.kernelPages p=true := by
        simpa [update_of_ne hne] using hp
      exact ⟨(freePage_bitmap_of_ne _ hne).trans (h.heap p hk).inUse,Or.inl hk⟩
  · exact h

theorem SharedHalf.write (h : SharedHalf place s) (page offset : Nat) (byte : UInt8) :
    SharedHalf place ((KernelCall.write page offset byte).run s) := by
  show SharedHalf place { s with machine := (KernelStep.write page offset byte).run s.machine }
  dsimp only [KernelStep.run]
  split_ifs with hpage
  · refine h.frame h.pmm rfl ?_ (fun p hp => ⟨(h.heap p hp).inUse,Or.inl hp⟩)
    intro p hb hk
    have hne : p≠page := by
      rintro rfl
      rw [hk] at hpage
      cases hpage
    exact ⟨setPage_mem_of_ne _ _ hne,hb,hk⟩
  · exact h

/-- A new space is built from free pages, and its upper half is a copy of the kernel's. -/
theorem SharedHalf.create (h : SharedHalf place s) (allocated : Bool) :
    SharedHalf place ((KernelCall.create allocated).run s) := by
  obtain ⟨hspares,hspace⟩ := vmmSpaceCreate_spares ⟨allocated,[]⟩ s.machine h.pmm
    h.tables.rootInUse
  show SharedHalf place (match vmmSpaceCreate ⟨allocated,[]⟩ s.machine with
    | (some space,m) => ⟨m,space :: s.spaces⟩
    | (none,m) => { s with machine := m })
  revert hspares hspace
  rcases vmmSpaceCreate ⟨allocated,[]⟩ s.machine with ⟨found,m⟩
  intro hspares hspace
  change Spares s.machine m at hspares
  have hold : SharedHalf place { s with machine := m } := by
    refine h.frame hspares.pmm hspares.kernelRoot ?_ ?_
    · intro p hb hk
      obtain ⟨hmem,hb'⟩ := hspares.page hb
      exact ⟨hmem,hb',by rw [hspares.kernelPages]; exact hk⟩
    · intro p hp
      rw [hspares.kernelPages] at hp
      exact ⟨(hspares.page (h.heap p hp).inUse).2,Or.inl hp⟩
  cases found with
  | none => exact hold
  | some space =>
    obtain ⟨root,rfl,hfree,hused,hcopy⟩ := hspace space rfl
    change s.machine.pmm.bitmap root=false at hfree
    refine ⟨hold.pmm,hold.tables,hold.heap,?_⟩
    intro space hs
    rcases List.mem_cons.mp hs with rfl | hs
    · have hdiv : root*4096/4096=root := Nat.mul_div_cancel _ (by omega)
      show SharesHalf m place (root*4096/4096)
      rw [hdiv]
      refine ⟨hused,?_,?_,?_,?_⟩
      · by_contra hplace
        obtain ⟨pl,hpl⟩ := Option.ne_none_iff_exists'.mp hplace
        exact Spares.ne hfree (h.tables.inUse hpl).1 rfl
      · rw [hspares.kernelRoot]
        exact Ne.symm (Spares.ne hfree h.tables.rootInUse)
      · rw [hspares.kernelPages]
        by_contra hk
        exact Spares.ne hfree (h.heap root (by simpa using hk)).inUse rfl
      intro i hi
      left
      rw [hspares.kernelRoot,entry,entry,(hspares.page h.tables.rootInUse).1]
      exact hcopy i hi
    · exact hold.shares space hs

/-- A call on the kernel's tables that leaves their top level as it is. -/
theorem SharedHalf.tablesOnly {place' : Nat → Option Place} (h : SharedHalf place s)
    (honly : TablesOnly s.machine place m' place')
    (hagree : s.spaces=[] ∨ ∀ j, Agree (m'.entry (s.machine.kernelRoot/4096) j)
      (s.machine.entry (s.machine.kernelRoot/4096) j)) :
    SharedHalf place' { s with machine := m' } := by
  refine ⟨honly.pmm,honly.tables,?_,?_⟩
  · intro p hp
    obtain ⟨hb,haddr,hplace,hne⟩ := h.heap p (by rw [← honly.kernelPages]; exact hp)
    obtain ⟨-,hb',hplace'⟩ := honly.page hb hplace hne
    refine ⟨hb',haddr,hplace',?_⟩
    show p≠m'.kernelRoot/4096
    rw [honly.kernelRoot]
    exact hne
  intro space hs
  obtain ⟨hb,hplace,hne,hkernel,hshare⟩ := h.shares space hs
  obtain ⟨hmem,hb',hplace'⟩ := honly.page hb hplace hne
  refine ⟨hb',hplace',?_,?_,?_⟩
  · show _ ≠ m'.kernelRoot/4096
    rw [honly.kernelRoot]
    exact hne
  · show m'.kernelPages _ = false
    rw [honly.kernelPages]
    exact hkernel
  intro i hi
  rcases hagree with hnone | hagree
  · rw [hnone] at hs
    cases hs
  have hkept : m'.entry (space.pml4Physical/4096) i =
      s.machine.entry (space.pml4Physical/4096) i := by rw [entry,hmem]; rfl
  show Agree (m'.entry _ i) (m'.entry (m'.kernelRoot/4096) i)
  rw [hkept,honly.kernelRoot]
  exact (hshare i hi).trans (hagree i).symm

/-- One call, unless it changes the top level behind the back of a space. -/
theorem SharedHalf.step (h : SharedHalf place s) (call : KernelCall)
    (hcall : call.keepsRoot s=true) : ∃ place', SharedHalf place' (call.run s) := by
  cases call with
  | take => exact ⟨place,h.take⟩
  | give page => exact ⟨place,h.give page⟩
  | write page offset byte => exact ⟨place,h.write page offset byte⟩
  | create allocated => exact ⟨place,h.create allocated⟩
  | map address physical flags =>
    obtain ⟨place',honly,hagree⟩ := vmmMapPage_spec h.tables h.pmm address.2 physical flags
    refine ⟨place',h.tablesOnly honly ?_⟩
    simp only [KernelCall.keepsRoot,Bool.or_eq_true,List.isEmpty_iff,Bool.not_eq_true'] at hcall
    rcases hcall with ((hnone | hrefused) | hfew) | hpres
    · exact Or.inl hnone
    · exact Or.inr (hagree (Or.inl (vmmMapPage_refused hrefused)))
    · by_cases hpres : present (s.machine.entry (s.machine.kernelRoot/4096) (rootIndex address))=true
      · exact Or.inr (hagree (Or.inr hpres))
      · exact Or.inr (hagree (Or.inl (vmmMapPage_short h.tables h.pmm hfew (by simpa using hpres))))
    · exact Or.inr (hagree (Or.inr hpres))
  | unmap address =>
    obtain ⟨place',honly,hsame⟩ := vmmUnmapPage_spec h.tables h.pmm address.2
    simp only [KernelCall.keepsRoot,Bool.or_eq_true,List.isEmpty_iff,Bool.not_eq_true'] at hcall
    rcases hcall with hnone | hlast
    · exact ⟨place',h.tablesOnly honly (Or.inl hnone)⟩
    · exact ⟨place',h.tablesOnly honly (Or.inr (fun j => Or.inl (hsame hlast j)))⟩

theorem SharedHalf.run (h : SharedHalf place s) (calls : List KernelCall)
    (hcalls : keepRoot calls s=true) : ∃ place', SharedHalf place' (runCalls calls s) := by
  induction calls generalizing s place with
  | nil => exact ⟨place,h⟩
  | cons call calls ih =>
    simp only [keepRoot,Bool.and_eq_true] at hcalls
    obtain ⟨place',hstep⟩ := h.step call hcalls.1
    exact ih hstep hcalls.2

end Steps

/-- In every run whose calls keep the top level of the kernel's tables, all spaces agree on the
kernel's half. -/
theorem spaces_agree_on_kernel_half (m : Machine) (hready : KernelReady m)
    (calls : List KernelCall) (hcalls : keepRoot calls ⟨m,[]⟩=true) :
    HalvesAgree (runCalls calls ⟨m,[]⟩) := by
  obtain ⟨hpmm,place,htables,hheap⟩ := hready
  have hstart : SharedHalf place ⟨m,[]⟩ :=
    ⟨hpmm,htables,hheap,fun space hs => by cases hs⟩
  obtain ⟨place',hrun⟩ := hstart.run calls hcalls
  exact hrun.halvesAgree

/-- Sixteen pages, the first two for the allocator's own tables, and an empty root of the
kernel's tables outside them. -/
def sampleBoot : Machine :=
  { mem := fun _ _ => 0
    pmm :=
      { bitmap := fun page => decide (page<2 ∨ 16≤page)
        pageReferences := fun _ => 0
        bitmapPhysical := 0
        bitmapPageCount := 1
        referencesPhysical := 4096
        referencesPageCount := 1
        pageCount := 16
        freePages := 14
        searchStart := 2
        memoryMap := [⟨0,16*4096,.usable⟩] }
    kernelRoot := 20*4096
    kernelPages := fun _ => false }

theorem sampleBoot_ready : KernelReady sampleBoot := by
  refine ⟨⟨?_,?_,by decide,by decide⟩,fun _ => none,⟨rfl,rfl,?_,?_,?_⟩,?_⟩
  · intro page hpage
    simp only [sampleBoot,decide_eq_false_iff_not,not_or] at hpage
    have hall : ∀ page<16, 2≤page → managed sampleBoot.pmm page=true := by decide
    have h16 : page<16 := by omega
    exact ⟨hall page h16 (by omega),h16⟩
  · intro page hpage
    simp only [managed,sampleBoot,pageIsUsable,List.any_cons,List.any_nil,Bool.or_false,
      Bool.and_eq_true,decide_eq_true_eq] at hpage
    show page<16
    omega
  · intro c p h
    cases h
  · intro c p h
    cases h
  · intro q l i _ _ _ _ hpres
    rw [show sampleBoot.entry q i=0 from rfl,present_zero] at hpres
    cases hpres
  · intro p hp
    cases hp

/-- The bottom of the kernel's half, and the page after it. -/
def firstUpper : UpperAddress := ⟨0xFFFF800000000000,Nat.le_refl _⟩
def secondUpper : UpperAddress := ⟨0xFFFF800000001000,by decide⟩

def sampleFlags : BitVec 64 := vmmWritable ||| vmmNoExecute

/-- Two spaces created around maps and an unmap below one entry of the root. -/
def sampleCalls : List KernelCall :=
  [.map firstUpper 0x2000 sampleFlags,.create true,.map secondUpper 0x3000 sampleFlags,
    .create true,.unmap firstUpper]

theorem sample_spaces_agree : KernelReady sampleBoot ∧
    keepRoot sampleCalls ⟨sampleBoot,[]⟩=true ∧
    HalvesAgree (runCalls sampleCalls ⟨sampleBoot,[]⟩) := by
  have hkeep : keepRoot sampleCalls ⟨sampleBoot,[]⟩=true := by decide +kernel
  exact ⟨sampleBoot_ready,hkeep,
    spaces_agree_on_kernel_half sampleBoot sampleBoot_ready sampleCalls hkeep⟩

/-- The query of an address in the space created last and in the kernel's own. -/
def queryBoth (address : Nat) (s : Spaces) :
    Option (Option (Nat × BitVec 64)) × Option (Nat × BitVec 64) :=
  (s.spaces.head?.map (fun space => vmmSpaceQuery space address s.machine),
    vmmSpaceQuery ⟨s.machine.kernelRoot,true⟩ address s.machine)

/-- The first entry of the upper half of the space created last: whether it leads to a table, and
whether the page of the table is in use. -/
def firstEntryOf (s : Spaces) : Option (Bool × Bool) :=
  s.spaces.head?.map (fun space =>
    let e := s.machine.entry (space.pml4Physical/4096) 256
    (present e && !huge e, s.machine.pmm.bitmap (addressPage e)))

/-- A page mapped below a new entry of the root is missing in a space created before; and after
the last page below an entry is unmapped, a space created before leads to a table that was given
back. -/
theorem new_and_emptied_tables_differ :
    (let s := runCalls [.create true,.map firstUpper 0x2000 sampleFlags] ⟨sampleBoot,[]⟩
     (queryBoth firstUpper s).1=some none ∧
       (queryBoth firstUpper s).2=some (0x2000,vmmPresent ||| sampleFlags)) ∧
    firstEntryOf (runCalls [.map firstUpper 0x2000 sampleFlags,.create true,.unmap firstUpper]
      ⟨sampleBoot,[]⟩)=some (true,false) := by
  decide +kernel

end ConeOS.Memory
