import ConeOS.Process.Lifecycle

namespace ConeOS.Process

open ConeOS.Library ConeOS.Library.Reading ConeOS.Memory List

section Bounds

variable {size : Nat} {bytes : Nat → UInt8} {space : VmmSpace}

theorem below_readNumber {offset count : Nat} (h : offset+count ≤ size) :
    Below size (readNumber offset count) bytes :=
  below_bind (below_block h) (below_pure _)

theorem below_readHeader (h : 64 ≤ size) : Below size readHeader bytes := by
  refine below_bind (below_block (by omega)) ?_
  iterate 7 refine below_bind (below_readNumber (by omega)) ?_
  exact below_pure _

theorem below_readProgramHeader {base : Nat} (h : base+56 ≤ size) :
    Below size (readProgramHeader base) bytes := by
  iterate 6 refine below_bind (below_readNumber (by omega)) ?_
  exact below_pure _

theorem below_copySegmentReads {program : Elf64ProgramHeader}
    (h : program.offset+program.fileSize ≤ size) (rounds copied : Nat) (m : Machine) :
    Below size (copySegmentReads program space rounds copied m) bytes := by
  induction rounds generalizing copied m with
  | zero => exact below_pure _
  | succ rounds ih =>
    rw [copySegmentReads]
    refine below_ite (fun _ => below_pure _) (fun hlt => ?_)
    dsimp only
    cases vmmSpaceTranslate space (program.virtualAddress+copied) m with
    | none => exact below_pure _
    | some physical => exact below_bind (below_block (by omega)) (ih _ _)

theorem below_loadSegmentReads (program : Elf64ProgramHeader) (m : Machine) :
    Below size (loadSegmentReads size program space m) bytes := by
  rw [loadSegmentReads]
  refine below_ite (fun _ => below_pure _) (fun hvalid => ?_)
  refine below_ite (fun _ => below_pure _) (fun _ => ?_)
  simp only [rangeValid,Bool.or_eq_true,Bool.and_eq_true,Bool.not_eq_true',not_or,
    Bool.and_eq_false_iff,decide_eq_true_eq,decide_eq_false_iff_not,not_not] at hvalid
  have hfile : program.offset+program.fileSize ≤ size := by
    have hrange := hvalid.1.1.2
    omega
  dsimp only
  cases mapSegment space (segmentFlags program) ((program.virtualAddress+program.memorySize -
      pageFloor program.virtualAddress+4095)/4096) (pageFloor program.virtualAddress) m with
  | mk e m1 =>
    cases e with
    | some e => exact below_pure _
    | none => exact below_copySegmentReads hfile _ _ _

theorem below_loadProgramsReads (header : Elf64Header) (pageLimit : Nat) {bases : List Nat}
    (hbases : ∀ base ∈ bases, base+56 ≤ size) (l : LoadState) (m : Machine) :
    Below size (loadProgramsReads size header space pageLimit bases l m) bytes := by
  induction bases generalizing l m with
  | nil => exact below_pure _
  | cons base rest ih =>
    have hrest (l : LoadState) (m : Machine) :=
      ih (fun b hb => hbases b (mem_cons_of_mem _ hb)) l m
    rw [loadProgramsReads]
    refine below_bind (below_readProgramHeader (hbases base mem_cons_self)) ?_
    generalize (readProgramHeader base).value bytes=program
    refine below_ite (fun _ => hrest l m) (fun _ => ?_)
    refine below_ite (fun _ => below_pure _) (fun _ => ?_)
    refine below_ite (fun _ => below_pure _) (fun _ => ?_)
    refine below_bind (below_loadSegmentReads program m) ?_
    cases (loadSegmentReads size program space m).value bytes with
    | mk e m1 =>
      cases e with
      | some e => exact below_pure _
      | none => exact hrest _ _

/-- `elf_load` reads nothing outside the image. -/
theorem below_elfLoadReads (pageLimit : Nat) (m : Machine) :
    Below size (elfLoadReads size space pageLimit m) bytes := by
  rw [elfLoadReads]
  refine below_ite (fun _ => below_pure _) (fun hsize => ?_)
  refine below_bind (below_readHeader (by omega)) ?_
  generalize readHeader.value bytes=header
  refine below_ite (fun _ => below_pure _) (fun hvalid => ?_)
  have hbases : ∀ base ∈ (List.range header.programCount).map
      (fun i => header.programOffset+i*56), base+56 ≤ size := by
    intro base hbase
    obtain ⟨i,hi,rfl⟩ := mem_map.mp hbase
    rw [mem_range] at hi
    simp only [headerValid,rangeValid,Bool.not_eq_true',Bool.not_eq_false,Bool.and_eq_true,
      beq_iff_eq,decide_eq_true_eq] at hvalid
    obtain ⟨⟨⟨⟨-,hentry⟩,-⟩,hrange⟩,-⟩ := hvalid
    rw [hentry] at hrange
    omega
  refine below_bind (below_loadProgramsReads header pageLimit hbases _ _) ?_
  cases (loadProgramsReads size header space pageLimit
      ((List.range header.programCount).map (fun i => header.programOffset+i*56))
      ⟨false,0,0⟩ m).value bytes with
  | mk result m1 =>
    cases result with
    | error e => exact below_pure _
    | ok l => exact below_ite (fun _ => below_pure _) (fun _ => below_pure _)

end Bounds

section Correct

/-- The user pages that are mapped. -/
def mappedUserPages (space : VmmSpace) (m : Machine) : Finset Nat :=
  (Finset.range userPages).filter (fun v => (vmmSpaceQuery space (v*4096) m).isSome)

/-- A segment of a file in user memory. -/
structure SegmentInPlace (image : List UInt8) (program : Elf64ProgramHeader) (space : VmmSpace)
    (m : Machine) : Prop where
  inFile : program.offset+program.fileSize ≤ image.length
  file : ∀ i, i<program.fileSize →
    visibleIn space m (program.virtualAddress+i)=image[program.offset+i]?
  zero : ∀ i, program.fileSize ≤ i → i<program.memorySize →
    visibleIn space m (program.virtualAddress+i)=some 0
  access : ∀ v ∈ segmentRange program, ∀ o, o<4096 → ∃ physical flags,
    vmmSpaceQuery space (v*4096+o) m=some (physical,flags) ∧
      hasFlag flags vmmUser=true ∧ hasFlag flags vmmWritable=writable program ∧
      hasFlag flags vmmNoExecute = !executable program
  exclusive : ¬ (writable program=true ∧ executable program=true)

/-- A file that `elf_load` has loaded into a space that had nothing in its lower half. -/
structure FileInPlace (image : List UInt8) (pageLimit : Nat) (space : VmmSpace) (m : Machine)
    (elf : ElfImage) : Prop where
  segments : ∀ program ∈ elfPrograms image, program.type=1 →
    SegmentInPlace image program space m
  entry : ∃ physical flags, vmmSpaceQuery space elf.entryPoint m=some (physical,flags) ∧
    hasFlag flags vmmUser=true ∧ hasFlag flags vmmNoExecute=false
  upper : ∀ program ∈ elfPrograms image, program.type=1 →
    program.virtualAddress+program.memorySize≤elf.imageEnd
  reached : ∃ program ∈ elfPrograms image, program.type=1 ∧
    program.virtualAddress+program.memorySize=elf.imageEnd
  below : elf.imageEnd<userStackAddress-4096
  count : elf.mappedPages=(mappedUserPages space m).card
  limit : elf.mappedPages≤pageLimit

variable {roots : Finset Nat} {m n : Machine} {space : VmmSpace} {image : List UInt8}
  {program : Elf64ProgramHeader}

theorem mem_segmentRange {i : Nat} (hi : i<program.memorySize) :
    (program.virtualAddress+i)/4096 ∈ segmentRange program := by
  rw [segmentRange,if_neg (by omega),Finset.mem_Ico]
  omega

/-- What the loader put into the pages of a segment is what the user finds there. -/
theorem SegmentLoaded.inPlace (h : InStep roots m n) (hr : space.pml4Physical/4096 ∈ roots)
    (hvalid : SegmentValid image program)
    (hloaded : SegmentLoaded image program program.fileSize (space.pml4Physical/4096) m) :
    SegmentInPlace image program space m := by
  have hmemory := hvalid.memory
  have hsizes := hvalid.sizes
  have hfile := hvalid.file
  have hbyte (i : Nat) (hi : i<program.memorySize) :
      visibleIn space m (program.virtualAddress+i) =
        some (segmentByte image program program.fileSize (program.virtualAddress+i)) := by
    obtain ⟨-,e,he,-,hbytes⟩ := hloaded (mem_segmentRange hi)
    have hread := hbytes ((program.virtualAddress+i)%4096) (Nat.mod_lt _ (by omega))
    rw [Nat.div_add_mod' (program.virtualAddress+i) 4096] at hread
    rw [visibleIn_eq h hr,if_pos (by omega),userByte,pageAt_of_leaf he,Option.map_some,hread]
  refine ⟨hfile,?_,?_,?_,hvalid.exclusive⟩
  · intro i hi
    rw [hbyte i (by omega),segmentByte,if_pos (by omega),Nat.add_sub_cancel_left,
      getD_eq_getElem _ _ (by omega),List.getElem?_eq_getElem (by omega)]
  · intro i h1 h2
    rw [hbyte i h2,segmentByte,if_neg (by omega)]
  intro v hv o ho
  obtain ⟨hlt,e,he,hflags,-⟩ := hloaded hv
  obtain ⟨huser,hwritable,-,hnx⟩ := queryFlags_flags e
  have hpage : (v*4096+o)/4096=v := by omega
  have hlow : v*4096+o<2 ^ 47 := by
    unfold userPages at hlt
    omega
  refine ⟨_,_,by rw [h.query hr hlow,hpage,he]; rfl,?_,?_,?_⟩
  · rw [huser,hflags.user]
  · rw [hwritable,hflags.writable]
  · rw [hnx,hflags.noExecute]

theorem ElfLoaded.inPlace (h : InStep roots m n) (hr : space.pml4Physical/4096 ∈ roots)
    {m₀ : Machine} (hempty : ∀ v, v<userPages → leafAt m₀ (space.pml4Physical/4096) v=none)
    {pageLimit : Nat} {elf : ElfImage}
    (hloaded : ElfLoaded image pageLimit (space.pml4Physical/4096) m₀ m elf) :
    FileInPlace image pageLimit space m elf := by
  have hsegments (program : Elf64ProgramHeader) (hp : program ∈ elfPrograms image)
      (htype : program.type=1) : SegmentInPlace image program space m :=
    (hloaded.segments program hp htype).2.inPlace h hr (hloaded.segments program hp htype).1
  refine ⟨hsegments,?_,hloaded.upper,hloaded.reached,hloaded.below,?_,hloaded.limit⟩
  · obtain ⟨program,hp,htype,hx,h1,h2⟩ := hloaded.entry
    obtain ⟨i,hi⟩ : ∃ i, elf.entryPoint=program.virtualAddress+i :=
      ⟨elf.entryPoint-program.virtualAddress,by omega⟩
    have hpage := mem_segmentRange (by omega : i<program.memorySize)
    obtain ⟨physical,flags,hquery,huser,-,hnx⟩ := (hsegments program hp htype).access _ hpage
      ((program.virtualAddress+i)%4096) (Nat.mod_lt _ (by omega))
    rw [Nat.div_add_mod' (program.virtualAddress+i) 4096] at hquery
    rw [hi]
    exact ⟨physical,flags,hquery,huser,by rw [hnx,hx]; rfl⟩
  rw [hloaded.count]
  congr 1
  ext v
  rw [mappedUserPages,Finset.mem_filter,Finset.mem_range]
  have hmapped {v : Nat} (hv : v<userPages) :
      (vmmSpaceQuery space (v*4096) m).isSome ↔ v ∈ elfPages image := by
    have hlow : v*4096<2 ^ 47 := by
      unfold userPages at hv
      omega
    rw [h.query hr hlow,Nat.mul_div_cancel _ (by omega),Option.isSome_map,
      hloaded.adds.mapped hv,hempty v hv]
    simp
  constructor
  · intro hv
    have hlt := (hloaded.adds.fresh hv).1
    exact ⟨hlt,(hmapped hlt).mpr hv⟩
  · intro hv
    exact (hmapped hv.1).mp hv.2

/-- `elf_load` reads only the image, and when it succeeds on a space with nothing in its lower
half, the file is in place. -/
theorem elf_load_correct (roots : Finset Nat) (m : Machine) (h : InStep roots m m)
    (space : VmmSpace) (hr : space.pml4Physical/4096 ∈ roots)
    (hempty : ∀ a, a<2 ^ 47 → vmmSpaceQuery space a m=none) (image : List UInt8)
    (pageLimit : Nat) :
    (elfLoadReads image.length space pageLimit m).value (imageBytes image) =
        elfLoad image space pageLimit m ∧
      Below image.length (elfLoadReads image.length space pageLimit m) (imageBytes image) ∧
      ∀ elf m', elfLoad image space pageLimit m=(.ok elf,m') →
        FileInPlace image pageLimit space m' elf := by
  refine ⟨rfl,below_elfLoadReads pageLimit m,?_⟩
  intro elf m' hload
  have hnone (v : Nat) (hv : v<userPages) :
      leafAt m (space.pml4Physical/4096) v=none := by
    have hlow : v*4096<2 ^ 47 := by
      unfold userPages at hv
      omega
    have hquery := hempty (v*4096) hlow
    rw [h.query hr hlow,Nat.mul_div_cancel _ (by omega)] at hquery
    exact Option.map_eq_none_iff.mp hquery
  obtain ⟨label,t,hapart⟩ := h
  have hnew := Finset.notMem_erase (space.pml4Physical/4096) roots
  have hroots := Finset.insert_erase hr
  rw [← hroots] at t
  have hstart := loading_start t (fun hv => hnone _ hv)
  obtain ⟨result,m1,n1,label1,hm1,-,h1,hloaded⟩ :=
    elfLoad_loading (Finset.mem_insert_self _ _) rfl image pageLimit hstart
  rw [hload] at hm1
  cases hm1
  have hin := h1.inStep hnew (hapart.mono (Finset.erase_subset _ _)) (fun q hq => hq.elim)
  exact (hloaded elf rfl).inPlace hin (Finset.mem_insert_self _ _) hnone

/-- The sample machine with one space that has nothing in it. -/
def sampleCreated : Machine := (vmmSpaceCreate idleWork (sampleMachine 0)).2

theorem sampleCreated_empty : InStep {2} sampleCreated sampleCreated ∧
    ∀ a, a<2 ^ 47 → vmmSpaceQuery ⟨2*4096,false⟩ a sampleCreated=none := by
  have hboot : InStep ∅ (sampleMachine 0) (sampleMachine 0) :=
    ((sampleMachine_booted 0).paired (SameButFree.refl _)).inStep
  obtain ⟨label,t,-⟩ := hboot
  have hdone : (vmmSpaceCreate idleWork (sampleMachine 0)).1=some ⟨2*4096,false⟩ := by
    decide +kernel
  obtain ⟨m1,n1,⟨hm1,-⟩ | ⟨c,label1,hm1,hn1,-,t1,-,hnone,-⟩⟩ :=
    Twin.vmmSpaceCreate (g := ⟨∅,label,kernelHeld (sampleMachine 0),fun _ => False⟩) idleWork t
  · rw [hm1] at hdone
    cases hdone
  have hsame : sampleCreated=m1 := congrArg Prod.snd hm1
  have hsame' : sampleCreated=n1 := congrArg Prod.snd hn1
  rw [hm1] at hdone
  have hc : c=2 := by
    have hroot := congrArg VmmSpace.pml4Physical (Option.some.inj hdone)
    dsimp only at hroot
    omega
  subst hc
  rw [← hsame,← hsame'] at t1
  rw [← hsame] at hnone
  have hin : InStep {2} sampleCreated sampleCreated := by
    refine ⟨label1,t1,?_⟩
    intro r v e hr hv he
    rw [Finset.mem_singleton.mp hr,hnone hv] at he
    cases he
  refine ⟨hin,fun a ha => ?_⟩
  rw [hin.query (Finset.mem_singleton_self 2) ha]
  exact Option.map_eq_none_iff.mpr (hnone (vpn_lt ha))

/-- The sample file, loaded into the empty space. -/
theorem sampleElf_in_place : ∃ elf m', elfLoad sampleElf ⟨2*4096,false⟩ 10 sampleCreated =
    (.ok elf,m') ∧ FileInPlace sampleElf 10 ⟨2*4096,false⟩ m' elf := by
  have hok : (elfLoad sampleElf ⟨2*4096,false⟩ 10 sampleCreated).1.isOk=true := by
    decide +kernel
  have hcorrect := (elf_load_correct {2} sampleCreated sampleCreated_empty.1 ⟨2*4096,false⟩
    (Finset.mem_singleton_self 2) sampleCreated_empty.2 sampleElf 10).2.2
  generalize elfLoad sampleElf ⟨2*4096,false⟩ 10 sampleCreated=loaded at hok hcorrect
  obtain ⟨_ | elf,m'⟩ := loaded
  · cases hok
  · exact ⟨elf,m',rfl,hcorrect elf m' rfl⟩

end Correct

end ConeOS.Process
