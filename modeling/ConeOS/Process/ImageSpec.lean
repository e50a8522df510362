import ConeOS.Memory.Loading
import ConeOS.Process.Image

namespace ConeOS.Process

open ConeOS.Library ConeOS.Library.Reading ConeOS.Memory List

/-- The user pages of a segment. -/
def segmentRange (program : Elf64ProgramHeader) : Finset Nat :=
  if program.memorySize=0 then ∅
  else
    Finset.Ico (program.virtualAddress/4096)
      ((program.virtualAddress+program.memorySize+4095)/4096)

/-- The user pages of the segments that are loaded. -/
def programPages : List Elf64ProgramHeader → Finset Nat
  | [] => ∅
  | program :: rest => (if program.type=1 then segmentRange program else ∅) ∪ programPages rest

/-- The program headers of a file. -/
def elfPrograms (image : List UInt8) : List Elf64ProgramHeader :=
  (List.range (Elf64Header.read image).programCount).map
    (fun i => Elf64ProgramHeader.read image ((Elf64Header.read image).programOffset+i*56))

def elfPages (image : List UInt8) : Finset Nat := programPages (elfPrograms image)

theorem mem_programPages {programs : List Elf64ProgramHeader} {v : Nat} :
    v ∈ programPages programs ↔
      ∃ program ∈ programs, program.type=1 ∧ v ∈ segmentRange program := by
  induction programs with
  | nil => simp [programPages]
  | cons program rest ih =>
    rw [programPages,Finset.mem_union,ih]
    by_cases htype : program.type=1 <;> simp [htype]

theorem segmentRange_card (program : Elf64ProgramHeader) :
    (segmentRange program).card=segmentPages program := by
  unfold segmentRange segmentPages pageFloor
  split_ifs with hzero
  · rfl
  · rw [Nat.card_Ico]
    omega

/-- The byte at a user address of a segment once `copied` bytes of its file part are there. -/
def segmentByte (image : List UInt8) (program : Elf64ProgramHeader) (copied address : Nat) :
    UInt8 :=
  if program.virtualAddress≤address ∧ address<program.virtualAddress+copied then
    image.getD (program.offset+(address-program.virtualAddress)) 0
  else 0

/-- The pages of a segment are in the space `r`, with its permissions and the first `copied`
bytes of its file part. -/
def SegmentLoaded (image : List UInt8) (program : Elf64ProgramHeader) (copied r : Nat)
    (m : Machine) : Prop :=
  ∀ ⦃v⦄, v ∈ segmentRange program → v<userPages ∧ ∃ e, leafAt m r v=some e ∧
    LeafFlags e true (writable program) false (!executable program) ∧
    ∀ o, o<4096 → readByte (m.mem (addressPage e)) o =
      segmentByte image program copied (v*4096+o)

/-- What `load_segment` asks of a segment. -/
structure SegmentValid (image : List UInt8) (program : Elf64ProgramHeader) : Prop where
  sizes : program.fileSize≤program.memorySize
  file : program.offset+program.fileSize ≤ image.length
  memory : program.virtualAddress+program.memorySize≤2 ^ 47
  exclusive : ¬ (writable program=true ∧ executable program=true)

theorem SegmentLoaded.extends {image : List UInt8} {program : Elf64ProgramHeader}
    {copied r : Nat} {m m' : Machine} (h : SegmentLoaded image program copied r m)
    (hext : Extends r m m') : SegmentLoaded image program copied r m' := by
  intro v hv
  obtain ⟨hlt,e,he,hflags,hbytes⟩ := h hv
  obtain ⟨he',hmem⟩ := hext hlt he
  exact ⟨hlt,e,he',hflags,by rw [hmem]; exact hbytes⟩

section Load

variable {g : Ghost} {r : Nat} {m₀ m n : Machine} {label : Nat → Option Label}
  {dirty : Nat → Prop} {space : VmmSpace} {program : Elf64ProgramHeader} {header : Elf64Header}
  {rest : List Elf64ProgramHeader} {l l' : LoadState}

theorem mapSegment_loading (hr : r ∈ g.roots) (hroot : space.pml4Physical/4096=r)
    {flags : BitVec 64} (hu : hasFlag flags vmmUser=true) {count page : Nat}
    (hbound : page+count*4096≤2 ^ 47) (h : Loading g r m₀ label dirty m n) :
    ∃ result m' n' label', mapSegment space flags count page m=(result,m') ∧
      mapSegment space flags count page n=(result,n') ∧
      Loading g r m₀ label' dirty m' n' ∧
      (result=none → Adds r (Finset.Ico (page/4096) (page/4096+count)) m m' ∧
        Extends r m m' ∧ ∀ v, page/4096≤v → v<page/4096+count →
          ∃ e, leafAt m' r v=some e ∧ LeafFlags e true (hasFlag flags vmmWritable)
            (hasFlag flags vmmCopyOnWrite) (hasFlag flags vmmNoExecute) ∧
            m'.mem (addressPage e)=fun _ => 0) := by
  induction count generalizing page m n label with
  | zero =>
    refine ⟨none,m,n,label,rfl,rfl,h,fun _ => ⟨?_,Extends.refl _ _,?_⟩⟩
    · rw [Nat.add_zero,Finset.Ico_self]
      exact Adds.of_same (fun _ => rfl)
    · intro v h1 h2
      omega
  | succ count ih =>
    have hpage : page<2 ^ 47 := by omega
    have htranslate : vmmSpaceTranslate space page n=vmmSpaceTranslate space page m := by
      rw [vmmSpaceTranslate,vmmSpaceTranslate,
        h.twin.vmmSpaceQuery_eq (by rw [hroot]; exact hr) hpage]
    rw [mapSegment,mapSegment,htranslate]
    cases (vmmSpaceTranslate space page m).isSome with
    | true => exact ⟨some .invalid,m,n,label,rfl,rfl,h,fun hx => by cases hx⟩
    | false =>
      simp only [Bool.false_eq_true,if_false,Machine.allocUserPage]
      rcases h.twin.allocCleared pmmKernelReservePages with ⟨hm,hn⟩ |
        ⟨p,hfree,-,hm,hn,t1,hkeeps,hleaves⟩
      · rw [hm,hn]
        exact ⟨some .outOfMemory,m,n,label,rfl,rfl,h,fun hx => by cases hx⟩
      rw [hm,hn]
      obtain ⟨ok,m2,n2,label2,hm2,hn2,hok,hfail⟩ := h.mapPage hr hroot hu hfree t1
        (hkeeps r) (Function.update_self ..) hleaves (fun q hq => Or.inr hq) page
      simp only [hm2,hn2]
      cases ok with
      | false =>
        exact ⟨some .outOfMemory,_,_,label2,rfl,rfl,hfail rfl,fun hx => by cases hx⟩
      | true =>
        obtain ⟨h2,ha,hnone,hleaf,hpage',hmem,hext,hflags⟩ := hok rfl
        have hrest : page+4096+count*4096≤2 ^ 47 := by omega
        obtain ⟨result,m3,n3,label3,hm3,hn3,h3,hadds⟩ := ih hrest h2
        refine ⟨result,m3,n3,label3,hm3,hn3,h3,fun hx => ?_⟩
        obtain ⟨hadds,hext',hnew⟩ := hadds hx
        have hpages : Finset.Ico (page/4096) (page/4096+(count+1)) =
            {page/4096} ∪ Finset.Ico ((page+4096)/4096) ((page+4096)/4096+count) := by
          ext v
          simp only [Finset.mem_union,Finset.mem_singleton,Finset.mem_Ico]
          omega
        rw [hpages]
        refine ⟨(Adds.one (vpn_lt ha) hnone hleaf).trans hadds,hext.trans hext',?_⟩
        intro v hv1 hv2
        by_cases hhere : v=page/4096
        · obtain ⟨he,hsame⟩ := hext' (vpn_lt ha) (by rw [hleaf (vpn_lt ha),if_pos rfl])
          refine ⟨_,by rw [hhere]; exact he,hflags,?_⟩
          rw [hsame,hpage',hmem,Machine.clearPage,setPage_mem,if_pos rfl]
        · exact hnew v (by omega) (by omega)

theorem writeBytes_other (hr : r ∈ g.roots) (h : Loading g r m₀ label dirty m n) {v w : Nat}
    {e u : BitVec 64} (hv : v<userPages) (he : leafAt m r v=some e) (hw : w<userPages)
    (hu : leafAt m r w=some u) (hne : w≠v) (offset count : Nat) (f : Nat → UInt8) :
    (m.writeBytes (addressPage e) offset count f).mem (addressPage u) =
      m.mem (addressPage u) := by
  apply setPage_mem_of_ne
  intro hpage
  exact hne (h.own hv he hr hw hu hpage).2

/-- A round of the copying loop brings the next bytes of the file. -/
theorem SegmentLoaded.advance (hr : r ∈ g.roots) (h : Loading g r m₀ label dirty m n)
    {image : List UInt8} {copied : Nat} {e : BitVec 64}
    (ha : program.virtualAddress+copied<2 ^ 47)
    (he : leafAt m r ((program.virtualAddress+copied)/4096)=some e)
    (hl : SegmentLoaded image program copied r m) {chunk : Nat}
    (hchunk : (program.virtualAddress+copied)%4096+chunk≤4096) :
    SegmentLoaded image program (copied+chunk) r (m.writeBytes (addressPage e)
      ((program.virtualAddress+copied)%4096) chunk
        (fun i => image.getD (program.offset+copied+i) 0)) := by
  intro v hv
  obtain ⟨hlt,u,hu,hflags,hbytes⟩ := hl hv
  have hlabel := (h.twin.leaf_page hr (vpn_lt ha) he).2.2.1
  refine ⟨hlt,u,by rw [Machine.writeBytes,h.twin.inv.leafAt_setPage hlabel hr hlt,hu],hflags,?_⟩
  intro o ho
  by_cases hhere : v=(program.virtualAddress+copied)/4096
  · subst hhere
    rw [he] at hu
    cases hu
    rw [Machine.writeBytes,setPage_mem,if_pos rfl,readByte_writeBytes]
    by_cases hin : (program.virtualAddress+copied)%4096≤o ∧
        o<(program.virtualAddress+copied)%4096+chunk
    · rw [if_pos hin,segmentByte,if_pos (by omega)]
      congr 1
      omega
    rw [if_neg hin,hbytes o ho,segmentByte,segmentByte]
    congr 1
    apply propext
    omega
  · rw [writeBytes_other hr h (vpn_lt ha) he hlt hu hhere,hbytes o ho,segmentByte,segmentByte]
    congr 1
    apply propext
    omega

/-- The bytes that a chunk is written with are those of the file. -/
theorem writeBytes_block (image : List UInt8) (m : Machine) (page offset start count : Nat) :
    m.writeBytes page offset count
        (fun i => ((block start count).value (imageBytes image)).getD i 0) =
      m.writeBytes page offset count (fun i => image.getD (start+i) 0) := by
  rw [Machine.writeBytes,Machine.writeBytes]
  congr 1
  funext i
  apply word_ext
  intro k hk
  rw [writeBytes,writeBytes,byteOf_packBytes _ hk,byteOf_packBytes _ hk]
  split_ifs with hin
  · rw [value_block,getD_eq_getElem?_getD,List.getElem?_map,List.getElem?_range (by omega)]
    rfl
  · rfl

theorem copySegment_loading (hr : r ∈ g.roots) (hroot : space.pml4Physical/4096=r)
    (image : List UInt8)
    (hbound : program.virtualAddress+program.fileSize≤2 ^ 47) (rounds copied : Nat)
    (h : Loading g r m₀ label dirty m n) :
    ∃ result m' n', copySegment image program space rounds copied m=(result,m') ∧
      copySegment image program space rounds copied n=(result,n') ∧
      Loading g r m₀ label dirty m' n' ∧
      (∀ {v}, v<userPages → leafAt m' r v=leafAt m r v) ∧
      (∀ {v e}, v<userPages → v ∉ Finset.Ico (program.virtualAddress/4096)
          ((program.virtualAddress+program.fileSize+4095)/4096) →
        leafAt m r v=some e → m'.mem (addressPage e)=m.mem (addressPage e)) ∧
      (SegmentLoaded image program copied r m → copied≤program.fileSize →
        program.fileSize≤copied+rounds → result=none →
        SegmentLoaded image program program.fileSize r m') := by
  induction rounds generalizing copied m n with
  | zero =>
    refine ⟨none,m,n,rfl,rfl,h,fun _ => rfl,fun _ _ _ => rfl,?_⟩
    intro hl h1 h2 _
    rw [show program.fileSize=copied by omega]
    exact hl
  | succ rounds ih =>
    rw [copySegment,copySegment,copySegmentReads,copySegmentReads]
    by_cases hdone : program.fileSize≤copied
    · simp only [hdone,if_true]
      refine ⟨none,m,n,rfl,rfl,h,fun _ => rfl,fun _ _ _ => rfl,?_⟩
      intro hl h1 _ _
      rw [show program.fileSize=copied by omega]
      exact hl
    simp only [hdone,if_false]
    have ha : program.virtualAddress+copied<2 ^ 47 := by omega
    have hr' : space.pml4Physical/4096 ∈ g.roots := by
      rw [hroot]
      exact hr
    have htranslate := h.twin.inv.forest.vmmSpaceTranslate_eq hr' ha
    have htranslate' : vmmSpaceTranslate space (program.virtualAddress+copied) n =
        vmmSpaceTranslate space (program.virtualAddress+copied) m := by
      rw [vmmSpaceTranslate,vmmSpaceTranslate,h.twin.vmmSpaceQuery_eq hr' ha]
    rw [htranslate',htranslate,hroot]
    cases he : leafAt m r ((program.virtualAddress+copied)/4096) with
    | none =>
      exact ⟨some .invalid,m,n,rfl,rfl,h,fun _ => rfl,fun _ _ _ => rfl,fun _ _ _ hx => by cases hx⟩
    | some e =>
      have hpage : (addressPage e*4096+(program.virtualAddress+copied)%4096)/4096 =
          addressPage e := by omega
      have hoffset : (addressPage e*4096+(program.virtualAddress+copied)%4096)%4096 =
          (program.virtualAddress+copied)%4096 := by omega
      simp only [Option.map_some,hpage,hoffset]
      have hchunk : (program.virtualAddress+copied)%4096 +
          min (4096-(program.virtualAddress+copied)%4096) (program.fileSize-copied) ≤
            4096 := by omega
      have hsome : 0 < min (4096-(program.virtualAddress+copied)%4096)
          (program.fileSize-copied) := by omega
      have hmost : copied+min (4096-(program.virtualAddress+copied)%4096)
          (program.fileSize-copied)≤program.fileSize := by omega
      generalize min (4096-(program.virtualAddress+copied)%4096)
        (program.fileSize-copied)=chunk at hchunk hsome hmost ⊢
      rw [value_bind,value_bind,writeBytes_block,writeBytes_block]
      obtain ⟨result,m',n',hm,hn,h',hleaf,hother,hloaded⟩ :=
        ih (copied+chunk) (h.writeBytes hr (vpn_lt ha) he
          ((program.virtualAddress+copied)%4096) chunk
          (fun i => image.getD (program.offset+copied+i) 0))
      have hsame {v : Nat} (hv : v<userPages) : leafAt (m.writeBytes (addressPage e)
          ((program.virtualAddress+copied)%4096) chunk
            (fun i => image.getD (program.offset+copied+i) 0)) r v=leafAt m r v :=
        h.twin.inv.leafAt_setPage (h.twin.leaf_page hr (vpn_lt ha) he).2.2.1 hr hv _
      refine ⟨result,m',n',hm,hn,h',?_,?_,?_⟩
      · intro v hv
        rw [hleaf hv,hsame hv]
      · intro v u hv hout hu
        rw [hother hv hout (by rw [hsame hv]; exact hu)]
        apply writeBytes_other hr h (vpn_lt ha) he hv hu
        rw [Finset.mem_Ico] at hout
        omega
      · intro hl h1 h2 hx
        exact hloaded (hl.advance hr h ha he hchunk) hmost (by omega) hx

theorem segmentFlags_flags (program : Elf64ProgramHeader) :
    hasFlag (segmentFlags program) vmmUser=true ∧
      hasFlag (segmentFlags program) vmmWritable=writable program ∧
      hasFlag (segmentFlags program) vmmCopyOnWrite=false ∧
      hasFlag (segmentFlags program) vmmNoExecute = !executable program := by
  unfold segmentFlags
  cases writable program <;> cases executable program <;> decide

theorem loadSegment_loading (hr : r ∈ g.roots) (hroot : space.pml4Physical/4096=r)
    (image : List UInt8) (program : Elf64ProgramHeader) (h : Loading g r m₀ label dirty m n) :
    ∃ result m' n' label', loadSegment image program space m=(result,m') ∧
      loadSegment image program space n=(result,n') ∧
      Loading g r m₀ label' dirty m' n' ∧
      (result=none → Adds r (segmentRange program) m m' ∧ Extends r m m' ∧
        SegmentValid image program ∧
        SegmentLoaded image program program.fileSize r m') := by
  unfold loadSegment loadSegmentReads
  by_cases hinvalid : (decide (program.fileSize > program.memorySize) ||
      !rangeValid program.offset program.fileSize image.length ||
      !rangeValid program.virtualAddress program.memorySize userAddressLimit ||
      (writable program && executable program))=true
  · simp only [hinvalid,if_true]
    exact ⟨some .invalid,m,n,label,rfl,rfl,h,fun hx => by cases hx⟩
  simp only [hinvalid]
  simp only [Bool.or_eq_true,decide_eq_true_eq,Bool.not_eq_true',not_or,Bool.not_eq_false,
    rangeValid,Bool.and_eq_true,userAddressLimit] at hinvalid
  obtain ⟨⟨⟨hfile,hoffset,hfit⟩,hstart,hsize⟩,hwx⟩ := hinvalid
  have hvalid : SegmentValid image program := by
    have hstart := of_decide_eq_true hstart
    have hsize := of_decide_eq_true hsize
    exact ⟨by omega,by omega,by omega,hwx⟩
  by_cases hzero : program.memorySize=0
  · have hrange : segmentRange program = ∅ := if_pos hzero
    simp only [hzero,if_true]
    refine ⟨none,m,n,label,rfl,rfl,h,fun _ => ⟨?_,Extends.refl _ _,hvalid,?_⟩⟩
    · rw [hrange]
      exact Adds.of_same (fun _ => rfl)
    · intro v hv
      rw [hrange] at hv
      exact absurd hv (Finset.notMem_empty v)
  simp only [hzero,if_false]
  have hbound : pageFloor program.virtualAddress +
      (program.virtualAddress+program.memorySize-pageFloor program.virtualAddress+4095) /
        4096*4096≤2 ^ 47 := by
    have hmemory := hvalid.memory
    unfold pageFloor
    omega
  have hfileBound : program.virtualAddress+program.fileSize≤2 ^ 47 := by
    have hmemory := hvalid.memory
    have hsizes := hvalid.sizes
    omega
  obtain ⟨huser,hw,hcow,hnx⟩ := segmentFlags_flags program
  obtain ⟨result,m1,n1,label1,hm1,hn1,h1,hmapped⟩ :=
    mapSegment_loading hr hroot huser hbound h
  rw [hm1,hn1]
  cases result with
  | some e => exact ⟨some e,m1,n1,label1,rfl,rfl,h1,fun hx => by cases hx⟩
  | none =>
    obtain ⟨result,m2,n2,hm2,hn2,h2,hleaf,hother,hcopied⟩ :=
      copySegment_loading hr hroot image hfileBound program.fileSize 0 h1
    refine ⟨result,m2,n2,label1,hm2,hn2,h2,fun hx => ?_⟩
    obtain ⟨hadds,hext,hnew⟩ := hmapped rfl
    have hrange : segmentRange program=Finset.Ico (pageFloor program.virtualAddress/4096)
        (pageFloor program.virtualAddress/4096+(program.virtualAddress +
          program.memorySize-pageFloor program.virtualAddress+4095)/4096) := by
      rw [segmentRange,if_neg hzero]
      unfold pageFloor
      congr 1 <;> omega
    have hempty : SegmentLoaded image program 0 r m1 := by
      intro v hv
      rw [hrange,Finset.mem_Ico] at hv
      obtain ⟨e,he,hflags,hzero⟩ := hnew v hv.1 hv.2
      rw [hw,hcow,hnx] at hflags
      refine ⟨(hadds.fresh (Finset.mem_Ico.mpr hv)).1,e,he,hflags,fun o _ => ?_⟩
      rw [hzero,segmentByte,if_neg (by omega)]
      exact readByte_zero o
    refine ⟨?_,?_,hvalid,hcopied hempty (Nat.zero_le _) (by omega) hx⟩
    · rw [hrange,← Finset.union_empty (Finset.Ico _ _)]
      exact hadds.trans (Adds.of_same hleaf)
    intro v e hv he
    obtain ⟨he1,hmem1⟩ := hext hv he
    refine ⟨by rw [hleaf hv,he1],?_⟩
    rw [hother hv ?_ he1,hmem1]
    intro hin
    have hsizes := hvalid.sizes
    have hmem : v ∈ segmentRange program := by
      rw [segmentRange,if_neg hzero,Finset.mem_Ico]
      rw [Finset.mem_Ico] at hin
      omega
    rw [hrange] at hmem
    rw [(hadds.fresh hmem).2] at he
    cases he

/-- What the program loop of `elf_load` learns from the segments it loads. -/
structure Surveyed (header : Elf64Header) (programs : List Elf64ProgramHeader)
    (l l' : LoadState) : Prop where
  executable : l'.entryIsExecutable=true → l.entryIsExecutable=true ∨
    ∃ program ∈ programs, program.type=1 ∧ executable program=true ∧
      program.virtualAddress≤header.entry ∧
      header.entry<program.virtualAddress+program.memorySize
  upper : l.highestEnd≤l'.highestEnd ∧ ∀ program ∈ programs, program.type=1 →
    program.virtualAddress+program.memorySize≤l'.highestEnd
  reached : l'.highestEnd=l.highestEnd ∨ ∃ program ∈ programs, program.type=1 ∧
    program.virtualAddress+program.memorySize=l'.highestEnd

theorem Surveyed.nil (header : Elf64Header) (l : LoadState) : Surveyed header [] l l :=
  ⟨Or.inl,⟨le_refl _,fun _ hx => absurd hx not_mem_nil⟩,Or.inl rfl⟩

theorem Surveyed.skip (h : Surveyed header rest l l')
    (htype : program.type≠1) : Surveyed header (program :: rest) l l' := by
  refine ⟨?_,⟨h.upper.1,?_⟩,?_⟩
  · intro hx
    obtain hx | ⟨p,hp,hprop⟩ := h.executable hx
    · exact Or.inl hx
    · exact Or.inr ⟨p,mem_cons_of_mem _ hp,hprop⟩
  · intro p hp hload
    rcases mem_cons.mp hp with rfl | hp
    · exact absurd hload htype
    · exact h.upper.2 p hp hload
  · obtain hx | ⟨p,hp,hprop⟩ := h.reached
    · exact Or.inl hx
    · exact Or.inr ⟨p,mem_cons_of_mem _ hp,hprop⟩

theorem Surveyed.add
    (h : Surveyed header rest (l.add header program) l') (htype : program.type=1) :
    Surveyed header (program :: rest) l l' := by
  have hhigh : (l.add header program).highestEnd =
      max l.highestEnd (program.virtualAddress+program.memorySize) := by
    rw [LoadState.add]
    dsimp only
    split_ifs <;> omega
  have hupper := h.upper.1
  rw [hhigh] at hupper
  refine ⟨?_,⟨by omega,?_⟩,?_⟩
  · intro hx
    obtain hx | ⟨p,hp,hprop⟩ := h.executable hx
    · simp only [LoadState.add,Bool.or_eq_true,Bool.and_eq_true,decide_eq_true_eq] at hx
      rcases hx with hx | ⟨⟨hexec,hlow⟩,hhigh⟩
      · exact Or.inl hx
      · exact Or.inr ⟨program,mem_cons_self,htype,hexec,hlow,by omega⟩
    · exact Or.inr ⟨p,mem_cons_of_mem _ hp,hprop⟩
  · intro p hp hload
    rcases mem_cons.mp hp with rfl | hp
    · omega
    · exact h.upper.2 p hp hload
  obtain hx | ⟨p,hp,hprop⟩ := h.reached
  · rw [hhigh] at hx
    by_cases hge : program.virtualAddress+program.memorySize≤l.highestEnd
    · exact Or.inl (by omega)
    · exact Or.inr ⟨program,mem_cons_self,htype,by omega⟩
  · exact Or.inr ⟨p,mem_cons_of_mem _ hp,hprop⟩

theorem loadPrograms_loading (hr : r ∈ g.roots) (hroot : space.pml4Physical/4096=r)
    (image : List UInt8) (header : Elf64Header) (pageLimit : Nat) (bases : List Nat)
    {programs : List Elf64ProgramHeader}
    (hprograms : bases.map (Elf64ProgramHeader.read image)=programs) (l : LoadState)
    (h : Loading g r m₀ label dirty m n) :
    ∃ result m' n' label', (loadProgramsReads image.length header space pageLimit bases l m).value
        (imageBytes image)=(result,m') ∧
      (loadProgramsReads image.length header space pageLimit bases l n).value
        (imageBytes image)=(result,n') ∧
      Loading g r m₀ label' dirty m' n' ∧
      ∀ l', result = .ok l' → Adds r (programPages programs) m m' ∧ Extends r m m' ∧
        l'.totalPages=l.totalPages+(programPages programs).card ∧
        (l.totalPages≤pageLimit → l'.totalPages≤pageLimit) ∧
        Surveyed header programs l l' ∧
        ∀ program ∈ programs, program.type=1 → SegmentValid image program ∧
          SegmentLoaded image program program.fileSize r m' := by
  induction bases generalizing programs l m n label with
  | nil =>
    subst hprograms
    refine ⟨.ok l,m,n,label,rfl,rfl,h,?_⟩
    intro l' hl
    cases hl
    exact ⟨Adds.of_same (fun _ => rfl),Extends.refl _ _,rfl,fun hle => hle,
      Surveyed.nil header l,fun _ hx => absurd hx not_mem_nil⟩
  | cons base bases ih =>
    obtain ⟨program,rest,rfl,hprogram,hrest⟩ : ∃ program rest, programs=program::rest ∧
        (readProgramHeader base).value (imageBytes image)=program ∧
        bases.map (Elf64ProgramHeader.read image)=rest := ⟨_,_,hprograms.symm,rfl,rfl⟩
    rw [loadProgramsReads,loadProgramsReads,value_bind,value_bind,hprogram]
    by_cases htype : program.type≠1
    · rw [if_pos htype,if_pos htype,programPages,if_neg htype,Finset.empty_union]
      obtain ⟨result,m1,n1,label1,hm1,hn1,h1,hok⟩ := ih hrest l h
      refine ⟨result,m1,n1,label1,hm1,hn1,h1,?_⟩
      intro l' hl
      obtain ⟨hadds,hext,htotal,hle,hsurvey,hall⟩ := hok l' hl
      refine ⟨hadds,hext,htotal,hle,hsurvey.skip htype,?_⟩
      intro p hp hload
      rcases mem_cons.mp hp with rfl | hp
      · exact absurd hload htype
      · exact hall p hp hload
    rw [if_neg htype,if_neg htype]
    by_cases hrange : (!rangeValid program.virtualAddress program.memorySize
        userAddressLimit)=true
    · simp only [hrange,if_true]
      exact ⟨.error .invalid,m,n,label,rfl,rfl,h,fun _ hx => by cases hx⟩
    simp only [hrange]
    by_cases hlimit : segmentPages program > pageLimit-l.totalPages
    · simp only [hlimit,if_true]
      exact ⟨.error .outOfMemory,m,n,label,rfl,rfl,h,fun _ hx => by cases hx⟩
    simp only [hlimit,if_false]
    obtain ⟨result,m1,n1,label1,hm1,hn1,h1,hadds⟩ :=
      loadSegment_loading hr hroot image program h
    rw [loadSegment] at hm1 hn1
    simp only [Bool.false_eq_true,if_false,value_bind,hm1,hn1]
    cases result with
    | some e => exact ⟨.error e,m1,n1,label1,rfl,rfl,h1,fun _ hx => by cases hx⟩
    | none =>
      obtain ⟨result,m2,n2,label2,hm2,hn2,h2,hrest⟩ := ih hrest (l.add header program) h1
      refine ⟨result,m2,n2,label2,hm2,hn2,h2,?_⟩
      intro l' hl
      obtain ⟨hadds,hext,hvalid,hloaded⟩ := hadds rfl
      obtain ⟨hadds',hext',htotal,hle,hsurvey,hall⟩ := hrest l' hl
      have hone : (l.add header program).totalPages=l.totalPages+segmentPages program := rfl
      rw [programPages,if_pos (not_not.mp htype)]
      refine ⟨hadds.trans hadds',hext.trans hext',?_,?_,hsurvey.add (not_not.mp htype),?_⟩
      · rw [Finset.card_union_of_disjoint (hadds.disjoint hadds'),segmentRange_card]
        omega
      · intro hlt
        exact hle (by omega)
      intro p hp hload
      rcases mem_cons.mp hp with rfl | hp
      · exact ⟨hvalid,hloaded.extends hext'⟩
      · exact hall p hp hload

/-- What a file that was loaded has become in the space `r`. -/
structure ElfLoaded (image : List UInt8) (pageLimit r : Nat) (m m' : Machine)
    (elf : ElfImage) : Prop where
  adds : Adds r (elfPages image) m m'
  extends_ : Extends r m m'
  segments : ∀ program ∈ elfPrograms image, program.type=1 → SegmentValid image program ∧
    SegmentLoaded image program program.fileSize r m'
  entry : ∃ program ∈ elfPrograms image, program.type=1 ∧ executable program=true ∧
    program.virtualAddress≤elf.entryPoint ∧
    elf.entryPoint<program.virtualAddress+program.memorySize
  upper : ∀ program ∈ elfPrograms image, program.type=1 →
    program.virtualAddress+program.memorySize≤elf.imageEnd
  reached : ∃ program ∈ elfPrograms image, program.type=1 ∧
    program.virtualAddress+program.memorySize=elf.imageEnd
  count : elf.mappedPages=(elfPages image).card
  limit : elf.mappedPages≤pageLimit
  below : elf.imageEnd<userStackAddress-4096

theorem elfLoad_loading (hr : r ∈ g.roots) (hroot : space.pml4Physical/4096=r)
    (image : List UInt8) (pageLimit : Nat) (h : Loading g r m₀ label dirty m n) :
    ∃ result m' n' label', elfLoad image space pageLimit m=(result,m') ∧
      elfLoad image space pageLimit n=(result,n') ∧ Loading g r m₀ label' dirty m' n' ∧
      ∀ elf, result = .ok elf → ElfLoaded image pageLimit r m m' elf := by
  unfold elfLoad elfLoadReads
  by_cases hshort : image.length<64
  · rw [if_pos hshort,if_pos hshort]
    exact ⟨.error .invalid,m,n,label,rfl,rfl,h,fun _ hx => by cases hx⟩
  have hread : readHeader.value (imageBytes image)=Elf64Header.read image := rfl
  rw [if_neg hshort,if_neg hshort,value_bind,value_bind,hread]
  by_cases hheader : (!headerValid image.length (Elf64Header.read image))=true
  · rw [if_pos hheader,if_pos hheader]
    exact ⟨.error .invalid,m,n,label,rfl,rfl,h,fun _ hx => by cases hx⟩
  rw [if_neg hheader,if_neg hheader,value_bind,value_bind]
  have hprograms : ((List.range (Elf64Header.read image).programCount).map
      (fun i => (Elf64Header.read image).programOffset+i*56)).map (Elf64ProgramHeader.read image) =
        elfPrograms image := by
    rw [map_map]
    rfl
  obtain ⟨result,m1,n1,label1,hm1,hn1,h1,hok⟩ := loadPrograms_loading hr hroot image
    (Elf64Header.read image) pageLimit _ hprograms ⟨false,0,0⟩ h
  rw [hm1,hn1]
  cases result with
  | error e => exact ⟨.error e,m1,n1,label1,rfl,rfl,h1,fun _ hx => by cases hx⟩
  | ok l =>
    obtain ⟨hadds,hext,htotal,hle,hsurvey,hall⟩ := hok l rfl
    dsimp only
    rw [value_ite,value_ite]
    split_ifs with hbad
    · exact ⟨.error .invalid,m1,n1,label1,rfl,rfl,h1,fun _ hx => by cases hx⟩
    refine ⟨_,m1,n1,label1,rfl,rfl,h1,?_⟩
    intro elf helf
    cases helf
    simp only [Bool.or_eq_true,Bool.not_eq_true',decide_eq_true_eq,not_or,not_le,
      Bool.not_eq_false] at hbad
    obtain hx | hentry := hsurvey.executable hbad.1
    · cases hx
    refine ⟨hadds,hext,hall,hentry,hsurvey.upper.2,?_,?_,hle (Nat.zero_le _),hbad.2⟩
    · obtain hx | hreached := hsurvey.reached
      · -- the segment with the entry point ends above zero
        obtain ⟨program,hp,hload,-,-,hend⟩ := hentry
        have hupper := hsurvey.upper.2 program hp hload
        have hzero : l.highestEnd=0 := hx
        omega
      · exact hreached
    · rw [htotal,Nat.zero_add]
      rfl

end Load

end ConeOS.Process
