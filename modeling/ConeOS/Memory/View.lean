import ConeOS.Memory.Loading

namespace ConeOS.Memory

open ConeOS.Library Machine Function

/-- What a user page holds. -/
def pageAt (m : Machine) (root vpn : Nat) : Option Block :=
  (leafAt m root vpn).map (fun e => m.mem (addressPage e))

/-- The byte at a user address. -/
def userByte (m : Machine) (root address : Nat) : Option UInt8 :=
  (pageAt m root (address/4096)).map (fun b => readByte b (address%4096))

/-- No leaf is writable and copy-on-write at once. -/
def Exclusive (roots : Finset Nat) (m : Machine) : Prop :=
  ∀ ⦃r v e⦄, r ∈ roots → v<userPages → leafAt m r v=some e →
    ¬ (hasFlag e vmmWritable=true ∧ hasFlag e vmmCopyOnWrite=true)

/-- No other user page is mapped to the page of this leaf. -/
def Sole (roots : Finset Nat) (m : Machine) (root vpn : Nat) (e : BitVec 64) : Prop :=
  ∀ ⦃s v w⦄, s ∈ roots → v<userPages → leafAt m s v=some w → addressPage w=addressPage e →
    s=root ∧ v=vpn

/-- Nobody may write to a page that others see. -/
def Apart (roots : Finset Nat) (m : Machine) : Prop :=
  ∀ ⦃r vpn e⦄, r ∈ roots → vpn<userPages → leafAt m r vpn=some e →
    hasFlag e vmmWritable=true → Sole roots m r vpn e

/-- All user pages hold what they held. -/
def SamePages (roots : Finset Nat) (m m' : Machine) : Prop :=
  ∀ ⦃r vpn⦄, r ∈ roots → vpn<userPages → pageAt m' r vpn=pageAt m r vpn

/-- One user page is now `b`, the others hold what they held. -/
def OnePage (roots : Finset Nat) (root vpn : Nat) (b : Option Block) (m m' : Machine) : Prop :=
  ∀ ⦃r v⦄, r ∈ roots → v<userPages → pageAt m' r v =
    if r=root ∧ v=vpn then b else pageAt m r v

/-- One leaf is now `leaf`, the others are as they were. -/
def OneLeaf (roots : Finset Nat) (root vpn : Nat) (leaf : Option (BitVec 64))
    (m m' : Machine) : Prop :=
  ∀ ⦃r v⦄, r ∈ roots → v<userPages → leafAt m' r v =
    if r=root ∧ v=vpn then leaf else leafAt m r v

/-- The pages of the kernel and all that the allocator does not own hold what they held. -/
structure SameKernel (m m' : Machine) : Prop where
  mem : ∀ {q}, m.kernelPages q=true ∨ managed m.pmm q=false → m'.mem q=m.mem q
  kernelPages : m'.kernelPages=m.kernelPages
  managed : ∀ q, Memory.managed m'.pmm q=Memory.managed m.pmm q

/-- A call that came to nothing: the spaces map what they mapped, with the same tables and
contents. What was writable may wait for its copy. -/
structure Restored (roots : Finset Nat) (m m' : Machine) : Prop where
  pages : SamePages roots m m'
  leaf : ∀ {r v}, r ∈ roots → v<userPages → leafAt m' r v=leafAt m r v ∨
    leafAt m' r v=(leafAt m r v).map protectedEntry
  tables : SameTables roots m m'
  managed : ∀ p, Memory.managed m'.pmm p=Memory.managed m.pmm p

/-- Two machines in step between operations, when all that is in hand is the kernel's and
no page is dirty. -/
def InStep (roots : Finset Nat) (m n : Machine) : Prop :=
  ∃ label, Twin ⟨roots,label,kernelHeld m,fun _ => False⟩ m n ∧ Apart roots m

section Frames

variable {roots roots' : Finset Nat} {m m' m'' : Machine} {r vpn v root : Nat}
  {leaf : Option (BitVec 64)} {g : Ghost} {n : Machine} {label' : Nat → Option Label}

theorem pageAt_of_leaf {e : BitVec 64} (h : leafAt m r vpn=some e) :
    pageAt m r vpn=some (m.mem (addressPage e)) := by
  rw [pageAt,h]
  rfl

theorem pageAt_of_none (h : leafAt m r vpn=none) : pageAt m r vpn=none := by
  rw [pageAt,h]
  rfl

theorem pageAt_map {r' : Nat} {f : BitVec 64 → BitVec 64}
    (hleaf : leafAt m' r' v=(leafAt m r v).map f)
    (hmem : ∀ e, leafAt m r v=some e → m'.mem (addressPage (f e))=m.mem (addressPage e)) :
    pageAt m' r' v=pageAt m r v := by
  rw [pageAt,pageAt,hleaf]
  cases he : leafAt m r v with
  | none => rfl
  | some e => simp only [Option.map_some,hmem e he]

theorem pageAt_congr (hleaf : leafAt m' r v=leafAt m r v)
    (hmem : ∀ e, leafAt m r v=some e → m'.mem (addressPage e)=m.mem (addressPage e)) :
    pageAt m' r v=pageAt m r v :=
  pageAt_map (f := id) (by rw [hleaf,Option.map_id_fun,id]) hmem

theorem SamePages.refl (roots : Finset Nat) (m : Machine) : SamePages roots m m :=
  fun _ _ _ _ => rfl

theorem SamePages.trans (h : SamePages roots m m') (h' : SamePages roots m' m'') :
    SamePages roots m m'' :=
  fun _ _ hr hv => (h' hr hv).trans (h hr hv)

theorem SamePages.mono (h : SamePages roots m m') (hsub : roots' ⊆ roots) :
    SamePages roots' m m' :=
  fun _ _ hr hv => h (hsub hr) hv

theorem SamePages.userByte (h : SamePages roots m m') {address : Nat} (hr : r ∈ roots)
    (ha : address<2 ^ 47) : userByte m' r address=userByte m r address := by
  rw [Memory.userByte,Memory.userByte,h hr (vpn_lt ha)]

theorem Exclusive.replace (h : Exclusive roots m)
    (hleaf : OneLeaf roots root vpn leaf m m')
    (hnew : ∀ e, leaf=some e →
      ¬ (hasFlag e vmmWritable=true ∧ hasFlag e vmmCopyOnWrite=true)) :
    Exclusive roots m' := by
  intro r v e hr hv he
  rw [hleaf hr hv] at he
  split_ifs at he with hx
  · exact hnew e he
  · exact h hr hv he

theorem Exclusive.of_leaves (h : Exclusive roots m) (hleaves : SameLeaves roots m m') :
    Exclusive roots m' := by
  intro r v e hr hv he
  rw [hleaves hr hv] at he
  exact h hr hv he

theorem SameContents.pages (hcontents : SameContents roots m m')
    (hleaves : SameLeaves roots m m') : SamePages roots m m' := by
  intro r vpn hr hv
  exact pageAt_congr (hleaves hr hv) (fun e he => hcontents hr hv he)

theorem SameTables.trans (h : SameTables roots m m') (h' : SameTables roots m' m'') :
    SameTables roots m m'' :=
  fun _ _ hr hp => (h' hr hp).trans (h hr hp)

theorem protectedEntry_idem (e : BitVec 64) :
    protectedEntry (protectedEntry e)=protectedEntry e := by
  unfold protectedEntry
  split_ifs with h1 h2
  · rfl
  · rfl
  -- the bit that was cleared is none of those asked for again
  exfalso
  apply h2
  intro h
  have hbit := congrArg (fun w : BitVec 64 => w.getLsbD 1) h
  simp only [BitVec.getLsbD_and,BitVec.getLsbD_or,BitVec.getLsbD_not,vmmPresent_bit,
    vmmUser_bit,vmmWritable_bit,vmmCopyOnWrite_bit] at hbit
  simp at hbit

theorem Restored.of_leaves (hpages : SamePages roots m m') (hleaves : SameLeaves roots m m')
    (htables : SameTables roots m m')
    (hmanaged : ∀ p, Memory.managed m'.pmm p=Memory.managed m.pmm p) : Restored roots m m' :=
  ⟨hpages,fun hr hv => Or.inl (hleaves hr hv),htables,hmanaged⟩

theorem Restored.refl (roots : Finset Nat) (m : Machine) : Restored roots m m :=
  ⟨SamePages.refl _ _,fun _ _ => Or.inl rfl,fun _ _ _ _ => rfl,fun _ => rfl⟩

theorem Restored.trans (h : Restored roots m m') (h' : Restored roots m' m'') :
    Restored roots m m'' := by
  refine ⟨h.pages.trans h'.pages,?_,h.tables.trans h'.tables,
    fun p => (h'.managed p).trans (h.managed p)⟩
  intro r v hr hv
  rcases h'.leaf hr hv with hl' | hl'
  · rw [hl']
    exact h.leaf hr hv
  right
  rcases h.leaf hr hv with hl | hl
  · rw [hl',hl]
  rw [hl',hl,Option.map_map]
  congr 1
  funext e
  exact protectedEntry_idem e

theorem Restored.mono (h : Restored roots m m') (hsub : roots' ⊆ roots) :
    Restored roots' m m' :=
  ⟨h.pages.mono hsub,fun hr hv => h.leaf (hsub hr) hv,fun _ _ hr hp => h.tables (hsub hr) hp,
    h.managed⟩

theorem Restored.of_mem (hmem : m'.mem=m.mem)
    (hmanaged : ∀ p, Memory.managed m'.pmm p=Memory.managed m.pmm p) : Restored roots m m' := by
  have hleaves : SameLeaves roots m m' := fun _ _ => leafAt_mem hmem _ _
  exact Restored.of_leaves (SameContents.pages (fun _ _ _ _ _ _ => by rw [hmem]) hleaves) hleaves
    (fun _ _ _ _ => tableAt_mem hmem _ _) hmanaged

theorem SameKernel.refl (m : Machine) : SameKernel m m :=
  ⟨fun _ => rfl,rfl,fun _ => rfl⟩

theorem SameKernel.trans (h : SameKernel m m') (h' : SameKernel m' m'') : SameKernel m m'' := by
  refine ⟨?_,h'.kernelPages.trans h.kernelPages,fun q => (h'.managed q).trans (h.managed q)⟩
  intro q hq
  rw [h'.mem (by rw [h.kernelPages,h.managed]; exact hq),h.mem hq]

theorem Twin.kernel_page (t : Twin g m n) {q : Nat}
    (hq : m.kernelPages q=true ∨ managed m.pmm q=false) :
    m.pmm.bitmap q=true ∧ g.label q=none := by
  have hlabel : g.label q=none := by
    by_contra hl
    obtain ⟨hm,-,hheld⟩ := t.inv.table hl
    rcases hq with hk | hq
    · have := (t.inv.kernelHeld hk).1
      omega
    · rw [hm] at hq
      cases hq
  refine ⟨?_,hlabel⟩
  rcases hq with hk | hq
  · have hheld := (t.inv.kernelHeld hk).1
    exact t.inv.bitmap_of_held (t.inv.managed_of_held hheld) hheld
  · exact (t.inv.foreign hq).1

theorem Keeps.sameKernel (t : Twin g m n) (h : Keeps r g.label label' m m') : SameKernel m m' := by
  refine ⟨?_,h.kernelPages,h.map.managed⟩
  intro q hq
  obtain ⟨hb,hl⟩ := t.kernel_page hq
  exact (h.page hb (by intro path; rw [hl]; simp)).1

theorem Frees.sameKernel (t : Twin g m n) (h : Frees r g.label label' m m') : SameKernel m m' := by
  refine ⟨?_,h.kernelPages,h.map.managed⟩
  intro q hq
  exact (h.page (by intro path; rw [(t.kernel_page hq).2]; simp)).2

theorem SameKernel.freePage (m : Machine) (p : Nat) : SameKernel m (m.freePage p) := by
  refine ⟨fun _ => rfl,rfl,fun q => ?_⟩
  rw [Machine.freePage,pmmFreePage]
  dsimp only
  split_ifs <;> rfl

theorem Apart.of_leaves (h : Apart roots m) (hleaves : SameLeaves roots m m') :
    Apart roots m' := by
  intro r vpn e hr hv he hw s v w hs hv' hsw
  rw [hleaves hr hv] at he
  rw [hleaves hs hv'] at hsw
  exact h hr hv he hw hs hv' hsw

theorem Apart.mono (h : Apart roots m) (hsub : roots' ⊆ roots) : Apart roots' m :=
  fun _ _ _ hr hv he hw _ _ _ hs hv' hsw => h (hsub hr) hv he hw (hsub hs) hv' hsw

theorem Apart.replace (h : Apart roots m)
    (hleaf : ∀ {r v}, r ∈ roots → v<userPages → leafAt m' r v =
      if r=root ∧ v=vpn then leaf else leafAt m r v)
    (hsole : ∀ e, leaf=some e → Sole roots m' root vpn e) : Apart roots m' := by
  intro r v e hr hv he hw s v' w hs hv' hsw hpage
  rw [hleaf hr hv] at he
  split_ifs at he with hhere
  · obtain ⟨rfl,rfl⟩ := hhere
    exact hsole e he hs hv' hsw hpage
  have hsw' := hsw
  rw [hleaf hs hv'] at hsw
  split_ifs at hsw with hthere
  · -- the new leaf is alone, so this one is not on its page
    refine absurd (hsole w hsw hr hv ?_ hpage.symm) hhere
    rw [hleaf hr hv,if_neg hhere,he]
  · exact h hr hv he hw hs hv' hsw hpage

end Frames

namespace InStep

variable {roots : Finset Nat} {m n : Machine} {space : VmmSpace} {address : Nat} {r v vpn : Nat}
  {e : BitVec 64}

theorem query (h : InStep roots m n) (hr : space.pml4Physical/4096 ∈ roots)
    (ha : address<2 ^ 47) : vmmSpaceQuery space address m =
      (leafAt m (space.pml4Physical/4096) (address/4096)).map
        (fun e => (addressPage e*4096+address%4096,queryFlags e)) := by
  obtain ⟨label,t,-⟩ := h
  exact t.inv.forest.vmmSpaceQuery_eq hr ha

theorem leaf_user (h : InStep roots m n) (hr : r ∈ roots)
    (hv : v<userPages) (he : leafAt m r v=some e) : hasFlag e vmmUser=true := by
  obtain ⟨label,t,-⟩ := h
  exact (t.inv.bitmap_of_leaf hr hv he).2.2.2

theorem vmmSpaceQuery_eq (h : InStep roots m n) (hr : space.pml4Physical/4096 ∈ roots)
    (ha : address<2 ^ 47) :
    vmmSpaceQuery space address n=vmmSpaceQuery space address m := by
  obtain ⟨label,t,-⟩ := h
  exact t.vmmSpaceQuery_eq hr ha

theorem vmmSpaceTranslate_eq (h : InStep roots m n) (hr : space.pml4Physical/4096 ∈ roots)
    (ha : address<2 ^ 47) :
    vmmSpaceTranslate space address n=vmmSpaceTranslate space address m := by
  rw [vmmSpaceTranslate,vmmSpaceTranslate,h.vmmSpaceQuery_eq hr ha]

theorem runKernel (h : InStep roots m n) (steps : List KernelStep) :
    InStep roots (runKernel steps m) (runKernel steps n) ∧
      SameLeaves roots m (Memory.runKernel steps m) ∧
      Restored roots m (Memory.runKernel steps m) := by
  obtain ⟨label,t,hapart⟩ := h
  obtain ⟨t',hleaves,hkeeps⟩ :=
    Twin.runKernel (g := ⟨roots,label,kernelHeld m,fun _ => False⟩) steps t
  exact ⟨⟨label,t',hapart.of_leaves hleaves⟩,hleaves,
    Restored.of_leaves (SameContents.pages (hkeeps.contents t) hleaves) hleaves
      (hkeeps.sameTables t) hkeeps.map.managed⟩

theorem kmalloc (h : InStep roots m n) (work : KernelWork) :
    ∃ m' n', Memory.kmalloc work m=(work.ok,m') ∧ Memory.kmalloc work n=(work.ok,n') ∧
      InStep roots m' n' ∧ SameLeaves roots m m' ∧ Restored roots m m' := by
  obtain ⟨h',hleaves,hsame⟩ := h.runKernel work.steps
  exact ⟨_,_,rfl,rfl,h',hleaves,hsame⟩

theorem vmmSpaceDestroy (h : InStep roots m n) (hr : space.pml4Physical/4096 ∈ roots)
    (hk : space.isKernel=false) :
    InStep (roots.erase (space.pml4Physical/4096)) (vmmSpaceDestroy space m)
        (vmmSpaceDestroy space n) ∧
      SameLeaves roots m (Memory.vmmSpaceDestroy space m) ∧
      Restored roots m (Memory.vmmSpaceDestroy space m) := by
  obtain ⟨label,t,hapart⟩ := h
  obtain ⟨t',hmem,hfrees⟩ := t.vmmSpaceDestroy space hr hk
  have hleaves : SameLeaves roots m (Memory.vmmSpaceDestroy space m) :=
    fun _ _ => leafAt_mem hmem _ _
  rw [← kernelHeld_congr hfrees.kernelPages] at t'
  exact ⟨⟨_,t',(hapart.of_leaves hleaves).mono (Finset.erase_subset _ _)⟩,hleaves,
    Restored.of_mem hmem hfrees.map.managed⟩

theorem writeBytes (h : InStep roots m n) (hr : r ∈ roots)
    (hv : vpn<userPages) (he : leafAt m r vpn=some e) (offset count : Nat)
    (f : Nat → UInt8) :
    InStep roots (m.writeBytes (addressPage e) offset count f)
        (n.writeBytes (addressPage e) offset count f) ∧
      SameLeaves roots m (m.writeBytes (addressPage e) offset count f) := by
  obtain ⟨label,t,hapart⟩ := h
  obtain ⟨hm,-,hlabel,-⟩ := t.leaf_page hr hv he
  have hleaves : SameLeaves roots m (m.writeBytes (addressPage e) offset count f) :=
    fun hs hv' => t.inv.leafAt_setPage hlabel hs hv' _
  exact ⟨⟨label,t.writeBytes hlabel hm offset count f,hapart.of_leaves hleaves⟩,hleaves⟩

theorem writeBytes_kernel (h : InStep roots m n) (hr : r ∈ roots)
    (hv : v<userPages) (he : leafAt m r v=some e) (offset count : Nat) (f : Nat → UInt8) :
    SameKernel m (m.writeBytes (addressPage e) offset count f) := by
  obtain ⟨label,t,-⟩ := h
  obtain ⟨hm,-,-,hk⟩ := t.leaf_page hr hv he
  refine ⟨?_,rfl,fun _ => rfl⟩
  intro q hq
  apply setPage_mem_of_ne
  rintro rfl
  rcases hq with hq | hq
  · rw [hk] at hq
    cases hq
  · rw [hm] at hq
    cases hq

theorem writeBytes_pages (h : InStep roots m n) (hr : r ∈ roots)
    (hv : vpn<userPages) (he : leafAt m r vpn=some e) (hsole : Sole roots m r vpn e)
    (offset count : Nat) (f : Nat → UInt8) :
    OnePage roots r vpn ((pageAt m r vpn).map (Library.writeBytes offset count f)) m
      (m.writeBytes (addressPage e) offset count f) := by
  obtain ⟨-,hleaves⟩ := h.writeBytes hr hv he offset count f
  intro s v hs hv'
  split_ifs with hhere
  · obtain ⟨rfl,rfl⟩ := hhere
    rw [pageAt_of_leaf (by rw [hleaves hs hv',he]),pageAt_of_leaf he]
    simp [Machine.writeBytes]
  apply pageAt_congr (hleaves hs hv')
  intro w hw
  have hne : addressPage w≠addressPage e := fun hpage => hhere (hsole hs hv' hw hpage)
  rw [Machine.writeBytes,setPage_mem_of_ne _ _ hne]

theorem vmmSpaceResolveCow (h : InStep roots m n) (hr : space.pml4Physical/4096 ∈ roots)
    (ha : address<2 ^ 47) :
    (∃ result, result≤0 ∧ vmmSpaceResolveCow space address m=(result,m) ∧
        vmmSpaceResolveCow space address n=(result,n) ∧
        ∀ old, leafAt m (space.pml4Physical/4096) (address/4096)=some old →
          hasFlag old vmmWritable=false → hasFlag old vmmCopyOnWrite=true →
          m.allocUserPage=(none,m) ∧ m.pmm.pageReferences (addressPage old)≠1) ∨
      ∃ old e m' n', Memory.vmmSpaceResolveCow space address m=(1,m') ∧
        Memory.vmmSpaceResolveCow space address n=(1,n') ∧ InStep roots m' n' ∧
        SamePages roots m m' ∧ SameKernel m m' ∧
        leafAt m (space.pml4Physical/4096) (address/4096)=some old ∧
        hasFlag old vmmWritable=false ∧ hasFlag old vmmCopyOnWrite=true ∧
        OneLeaf roots (space.pml4Physical/4096) (address/4096) (some e) m m' ∧
        LeafFlags e true true false (hasFlag old vmmNoExecute) := by
  obtain ⟨label,t,hapart⟩ := h
  rcases t.vmmSpaceResolveCow (fun _ hq => hq) hr ha with hsame |
    ⟨old,e,m',n',hm,hn,t',hold,hw,hc,hres⟩
  · exact Or.inl hsame
  right
  rw [← kernelHeld_congr hres.keeps.kernelPages] at t'
  refine ⟨old,e,m',n',hm,hn,⟨label,t',hapart.replace hres.leaf ?_⟩,?_,
    hres.keeps.sameKernel t,hold,hw,hc,fun _ _ hs hv' => hres.leaf hs hv',hres.flags⟩
  · intro w hw s v u hs hv' hu hpage
    cases hw
    exact hres.sole hs hv' hu hpage
  intro s v hs hv'
  have hleaf := hres.leaf hs hv'
  split_ifs at hleaf with hhere
  · obtain ⟨rfl,rfl⟩ := hhere
    rw [pageAt_of_leaf hleaf,pageAt_of_leaf hold,hres.contents]
  · exact pageAt_congr hleaf (fun u hu => hres.keeps.contents t hs hv' hu)

/-- A cleared page is mapped at a user address, or goes back to the allocator. -/
theorem fillPage (h : InStep roots m n) {flags : BitVec 64} (page : Nat)
    (hr : space.pml4Physical/4096 ∈ roots) (hu : hasFlag flags vmmUser=true) :
    (m.allocUserPage=(none,m) ∧ n.allocUserPage=(none,n)) ∨
      ∃ p ok m1 n1 m2 n2, m.allocUserPage=(some p,m1) ∧ n.allocUserPage=(some p,n1) ∧
        mapPageLocked space page (p*4096) flags (m1.clearPage p)=(ok,m2) ∧
        mapPageLocked space page (p*4096) flags (n1.clearPage p)=(ok,n2) ∧
        (ok=true → InStep roots m2 n2 ∧ page<2 ^ 47 ∧
          leafAt m (space.pml4Physical/4096) (page/4096)=none ∧
          addressPage (leafEntry p flags)=p ∧
          LeafFlags (leafEntry p flags) true (hasFlag flags vmmWritable)
            (hasFlag flags vmmCopyOnWrite) (hasFlag flags vmmNoExecute) ∧
          OneLeaf roots (space.pml4Physical/4096) (page/4096) (some (leafEntry p flags)) m
            m2 ∧ SameKernel m m2 ∧
          OnePage roots (space.pml4Physical/4096) (page/4096) (some (fun _ => 0)) m m2) ∧
        (ok=false → InStep roots (m2.freePage p) (n2.freePage p) ∧
          SamePages roots m (m2.freePage p) ∧ SameLeaves roots m (m2.freePage p)) := by
  obtain ⟨label,t,hapart⟩ := h
  rcases t.allocCleared pmmKernelReservePages with hnone |
    ⟨p,hfree,hlt,hm,hn,t1,hkeeps,hleaves⟩
  · exact Or.inl hnone
  right
  obtain ⟨hpm,hpl,hpmap,hpheld,hpk⟩ := t.inv.free_page hfree
  obtain ⟨ok,m2,n2,label2,hm2,hn2,hkeeps2,hfail,hok⟩ :=
    t1.mapPageLocked (p := p) space page hr hu (by simp) hpk
  have hleaf1 {r v : Nat} (hr : r ∈ roots) (hv : v<userPages) :
      leafAt ((m.take p).clearPage p) r v=leafAt m r v := hleaves hr hv
  have hcontents : SameContents roots m m2 :=
    SameContents.trans ((hkeeps 0).contents t) (hkeeps2.contents t1) (Finset.Subset.refl _)
      (fun hs hv he => by rw [leafPage,hleaf1 hs hv,he]; rfl)
  have hk2 : m2.kernelPages=m.kernelPages := hkeeps2.kernelPages
  refine ⟨p,ok,_,_,m2,n2,hm,hn,hm2,hn2,?_,?_⟩
  · intro htrue
    obtain ⟨ha,-,hempty,t2,hleaf2⟩ := hok htrue
    obtain ⟨hflags,hpage⟩ := newLeaf_entry flags hlt
    change LeafFlags (leafEntry p flags) _ _ _ _ at hflags
    change addressPage (leafEntry p flags)=p at hpage
    rw [hu] at hflags
    simp only [update_self,Nat.sub_self,update_back 1 hpheld] at t2
    rw [← kernelHeld_congr hk2] at t2
    have hleaf {r v : Nat} (hs : r ∈ roots) (hv : v<userPages) : leafAt m2 r v =
        if r=space.pml4Physical/4096 ∧ v=page/4096 then some (leafEntry p flags)
        else leafAt m r v := by
      rw [hleaf2 hs hv,hleaf1 hs hv]
    have hhere : leafAt m2 (space.pml4Physical/4096) (page/4096) =
        some (leafEntry p flags) := by
      rw [hleaf hr (vpn_lt ha),if_pos ⟨rfl,rfl⟩]
    have hzero : m2.mem p=fun _ => 0 := by
      have hpl : label p=none := hpl
      have hbit : ((m.take p).clearPage p).pmm.bitmap p=true := update_self ..
      rw [(hkeeps2.page hbit (by intro path; simp [hpl])).1,clearPage,setPage_mem,if_pos rfl]
    refine ⟨⟨label2,t2,hapart.replace hleaf ?_⟩,ha,?_,hpage,hflags,fun _ _ hs hv => hleaf hs hv,
      ((hkeeps 0).sameKernel t).trans (hkeeps2.sameKernel t1),?_⟩
    · intro e he s v w hs hv hw hpw
      cases he
      rw [hleaf hs hv] at hw
      split_ifs at hw with hx
      · exact hx
      -- a page that was free is mapped nowhere
      have hpos := mappings_pos hs hv hw
      rw [hpw,hpage] at hpos
      have hzero : mappings m roots p=0 := hpmap
      omega
    · rw [← hleaf1 hr (vpn_lt ha)]
      exact hempty
    intro s v hs hv
    split_ifs with hx
    · obtain ⟨rfl,rfl⟩ := hx
      rw [pageAt_of_leaf hhere,hpage,hzero]
    · exact pageAt_congr (by rw [hleaf hs hv,if_neg hx]) (fun e he => hcontents hs hv he)
  · intro hfalse
    obtain ⟨t2,hleaves2⟩ := hfail hfalse
    have t3 := t2.freePage (p := p) (by simp) (fun hx => by rw [hk2,hpk] at hx; cases hx)
    simp only [update_self,Nat.sub_self,update_back 1 hpheld] at t3
    have hleaf : SameLeaves roots m (m2.freePage p) := fun hs hv => by
      rw [leafAt_freePage,hleaves2 hs hv,hleaf1 hs hv]
    have hk3 : (m2.freePage p).kernelPages=m.kernelPages := hk2
    rw [← kernelHeld_congr hk3] at t3
    have hcontents' : SameContents roots m (m2.freePage p) := hcontents
    exact ⟨⟨label2,t3,hapart.of_leaves hleaf⟩,hcontents'.pages hleaf,hleaf⟩

/-- A page is taken from a space and loses one reference. -/
theorem unmapPage (h : InStep roots m n) (hr : space.pml4Physical/4096 ∈ roots)
    (ha : address<2 ^ 47) (halign : address%4096=0) :
    (leafAt m (space.pml4Physical/4096) (address/4096)=none ∧
        vmmSpaceUnmapPage space address m=(none,m) ∧
        vmmSpaceUnmapPage space address n=(none,n)) ∨
      ∃ p m' n', vmmSpaceUnmapPage space address m=(some (p*4096), m') ∧
        vmmSpaceUnmapPage space address n=(some (p*4096), n') ∧
        InStep roots (m'.freePage p) (n'.freePage p) ∧
        SameKernel m (m'.freePage p) ∧
        OneLeaf roots (space.pml4Physical/4096) (address/4096) none m (m'.freePage p) ∧
        OnePage roots (space.pml4Physical/4096) (address/4096) none m (m'.freePage p) := by
  obtain ⟨label,t,hapart⟩ := h
  rcases t.vmmSpaceUnmapPage hr ha halign with hnone |
    ⟨e,m',n',label',he,hm,hn,t1,hfrees,hleaf⟩
  · exact Or.inl hnone
  right
  obtain ⟨hmanaged,-,-,hk⟩ := t.leaf_page hr (vpn_lt ha) he
  have hk' : m'.kernelPages=m.kernelPages := hfrees.kernelPages
  have t2 := t1.freePage (p := addressPage e) (by simp)
    (fun hx => by rw [hk',hk] at hx; cases hx)
  simp only [update_self,Nat.add_sub_cancel,update_idem,update_eq_self] at t2
  have hk2 : (m'.freePage (addressPage e)).kernelPages=m.kernelPages := hk'
  rw [← kernelHeld_congr hk2] at t2
  have hleaf' {r v : Nat} (hs : r ∈ roots) (hv : v<userPages) :
      leafAt (m'.freePage (addressPage e)) r v =
        if r=space.pml4Physical/4096 ∧ v=address/4096 then none else leafAt m r v := by
    rw [leafAt_freePage,hleaf hs hv]
  refine ⟨addressPage e,m',n',hm,hn,⟨label',t2,hapart.replace hleaf' ?_⟩,
    (hfrees.sameKernel t).trans (SameKernel.freePage m' _),fun _ _ hs hv => hleaf' hs hv,?_⟩
  · intro w hw
    cases hw
  intro s v hs hv
  split_ifs with hx
  · exact pageAt_of_none (by rw [hleaf' hs hv,if_pos hx])
  · exact pageAt_congr (by rw [hleaf' hs hv,if_neg hx])
      (fun w hw => hfrees.contents t hs hv hw)

/-- A fork that fails changes no user page; one that succeeds gives the child the pages of
the parent, and neither may write to them. -/
theorem vmmSpaceCloneCow (h : InStep roots m n) (work : KernelWork)
    (hr : space.pml4Physical/4096 ∈ roots) :
    ∃ m' n', InStep roots m' n' ∧ SameLeaves roots m m' ∧ Restored roots m m' ∧
        Memory.vmmSpaceCloneCow work space m=(none,m') ∧
        Memory.vmmSpaceCloneCow work space n=(none,n') ∨
      ∃ c, c ∉ roots ∧ InStep (insert c roots) m' n' ∧ Restored roots m m' ∧
        (Exclusive roots m → Exclusive (insert c roots) m') ∧
        (∀ {vpn}, vpn<userPages →
          pageAt m' c vpn=pageAt m (space.pml4Physical/4096) vpn) ∧
        Memory.vmmSpaceCloneCow work space m=(some ⟨c*4096,false⟩,m') ∧
        Memory.vmmSpaceCloneCow work space n=(some ⟨c*4096,false⟩,n') := by
  obtain ⟨label,t,hapart⟩ := h
  obtain ⟨m',n',label',⟨hm,hn,t',hleaves,hcontents,htables,hmap⟩ |
    ⟨c,hm,hn,hnew,t',hothers,hparent,hchild,hcontents,htables,hmap⟩⟩ :=
    Twin.vmmSpaceCloneCow (g := ⟨roots,label,kernelHeld m,fun _ => False⟩) work t hr
  · exact ⟨m',n',Or.inl ⟨⟨label',t',hapart.of_leaves hleaves⟩,hleaves,
      Restored.of_leaves (hcontents.pages hleaves) hleaves htables hmap.managed,hm,hn⟩⟩
  generalize space.pml4Physical/4096=root at *
  have hpresent {v : Nat} {e : BitVec 64} (hv : v<userPages) (he : leafAt m root v=some e) :
      present e=true ∧ hasFlag e vmmUser=true := by
    obtain ⟨q,-,-,hp⟩ := (t.inv.forest.leafAt_iff hr hv e).mp he
    exact ⟨hp,(t.inv.bitmap_of_leaf hr hv he).2.2.2⟩
  -- every leaf comes from one on the same page, and only old ones are writable
  have horigin {s v : Nat} {w : BitVec 64} (hs : s ∈ insert c roots) (hv : v<userPages)
      (hw : leafAt m' s v=some w) :
      (s ∈ roots ∧ s≠root ∧ leafAt m s v=some w) ∨
        hasFlag w vmmWritable=false ∧ ∃ e, leafAt m root v=some e ∧
          addressPage w=addressPage e := by
    rcases Finset.mem_insert.mp hs with rfl | hs
    · rw [hchild hv] at hw
      obtain ⟨e,he,rfl⟩ := Option.map_eq_some_iff.mp hw
      obtain ⟨hflags,hpage⟩ := sharedEntry_flags (hpresent hv he).2
      exact Or.inr ⟨hflags.writable,e,he,hpage⟩
    by_cases hsr : s=root
    · subst hsr
      rw [hparent hv] at hw
      obtain ⟨e,he,rfl⟩ := Option.map_eq_some_iff.mp hw
      obtain ⟨hp,hu⟩ := hpresent hv he
      obtain ⟨hflags,hpage⟩ := protectedEntry_flags hp hu
      exact Or.inr ⟨hflags.writable,e,he,hpage⟩
    · rw [hothers hs hsr hv] at hw
      exact Or.inl ⟨hs,hsr,hw⟩
  refine ⟨m',n',Or.inr ⟨c,hnew,⟨label',t',?_⟩,⟨?_,?_,htables,hmap.managed⟩,?_,?_,hm,hn⟩⟩
  · intro r v e hr' hv he hwrite s v' w hs hv' hw hpage
    rcases horigin hr' hv he with ⟨hold,hne,he⟩ | ⟨hro,-⟩
    · rcases horigin hs hv' hw with ⟨hs,-,hw⟩ | ⟨-,u,hu,hpu⟩
      · exact hapart hold hv he hwrite hs hv' hw hpage
      · exact absurd (hapart hold hv he hwrite hr hv' hu (hpu.symm.trans hpage)).1.symm hne
    · rw [hro] at hwrite
      cases hwrite
  · intro s v hs hv
    by_cases hsr : s=root
    · subst hsr
      apply pageAt_map (hparent hv)
      intro e he
      obtain ⟨hp,hu⟩ := hpresent hv he
      rw [(protectedEntry_flags hp hu).2,hcontents hs hv he]
    · exact pageAt_congr (hothers hs hsr hv) (fun e he => hcontents hs hv he)
  · intro s v hs hv
    by_cases hsr : s=root
    · subst hsr
      exact Or.inr (hparent hv)
    · exact Or.inl (hothers hs hsr hv)
  · intro hx r v w hr' hv hw hboth
    rcases horigin hr' hv hw with ⟨hold,-,hw⟩ | ⟨hro,-⟩
    · exact hx hold hv hw hboth
    · rw [hro] at hboth
      cases hboth.1
  · intro v hv
    apply pageAt_map (hchild hv)
    intro e he
    rw [(sharedEntry_flags (hpresent hv he).2).2,hcontents hr hv he]

end InStep

section Restored

variable {roots : Finset Nat} {m m' n n' : Machine}

theorem InStep.leaf_present (h : InStep roots m n) {r v : Nat} {e : BitVec 64} (hr : r ∈ roots)
    (hv : v<userPages) (he : leafAt m r v=some e) : present e=true := by
  obtain ⟨label,t,-⟩ := h
  obtain ⟨q,-,-,hp⟩ := (t.inv.forest.leafAt_iff hr hv e).mp he
  exact hp

theorem Restored.exclusive (h : Restored roots m m') (hi : InStep roots m n)
    (hx : Exclusive roots m) : Exclusive roots m' := by
  intro r v e hr hv he
  rcases h.leaf hr hv with hl | hl
  · rw [hl] at he
    exact hx hr hv he
  rw [hl] at he
  obtain ⟨w,hw,rfl⟩ := Option.map_eq_some_iff.mp he
  have hflags := (protectedEntry_flags (hi.leaf_present hr hv hw) (hi.leaf_user hr hv hw)).1
  rw [hflags.writable]
  simp

end Restored

namespace Loading

variable {roots : Finset Nat} {c : Nat} {label₀ label : Nat → Option Label}
  {dirty : Nat → Prop} {m₀ m n : Machine}

theorem apart (hnew : c ∉ roots) (hapart : Apart roots m₀)
    (h : Loading ⟨insert c roots,label₀,kernelHeld m₀,fun _ => False⟩ c m₀ label dirty m n) :
    Apart (insert c roots) m := by
  intro r v e hr hv he hwrite s v' w hs hv' hw hpage
  by_cases hrc : r=c
  · subst hrc
    exact h.own hv he hs hv' hw hpage
  by_cases hsc : s=c
  · subst hsc
    exact absurd (h.own hv' hw hr hv he hpage.symm).1 hrc
  rw [h.others hr hrc hv] at he
  rw [h.others hs hsc hv'] at hw
  exact hapart ((Finset.mem_insert.mp hr).resolve_left hrc) hv he hwrite
    ((Finset.mem_insert.mp hs).resolve_left hsc) hv' hw hpage

theorem sameLeaves (hnew : c ∉ roots)
    (h : Loading ⟨insert c roots,label₀,kernelHeld m₀,fun _ => False⟩ c m₀ label dirty m n) :
    SameLeaves roots m₀ m ∧ SamePages roots m₀ m ∧ SameTables roots m₀ m ∧
      ∀ p, Memory.managed m.pmm p=Memory.managed m₀.pmm p := by
  have hne {r : Nat} (hr : r ∈ roots) : r≠c := by
    rintro rfl
    exact hnew hr
  have hleaves : SameLeaves roots m₀ m :=
    fun hr hv => h.others (Finset.mem_insert_of_mem hr) (hne hr) hv
  refine ⟨hleaves,SameContents.pages ?_ hleaves,?_,h.managed⟩
  · intro r v e hr hv he
    exact h.contents (Finset.mem_insert_of_mem hr) (hne hr) hv he
  · intro r path hr hp
    exact h.tables (Finset.mem_insert_of_mem hr) (hne hr) hp

theorem inStep (hnew : c ∉ roots) (hapart : Apart roots m₀)
    (h : Loading ⟨insert c roots,label₀,kernelHeld m₀,fun _ => False⟩ c m₀ label dirty m n)
    (hclean : ∀ q, dirty q → n.mem q=m.mem q) : InStep (insert c roots) m n := by
  have t := h.twin.withDirty (fun _ => False) (fun q _ _ hd => Or.inr (hclean q hd))
  rw [← kernelHeld_congr h.kernelPages] at t
  exact ⟨label,t,h.apart hnew hapart⟩

/-- A space that is given up takes what was dirty with it. -/
theorem destroy (hnew : c ∉ roots) (hapart : Apart roots m₀) (space : VmmSpace)
    (h : Loading ⟨insert c roots,label₀,kernelHeld m₀,fun _ => False⟩ c m₀ label dirty m n)
    (hroot : space.pml4Physical/4096=c) (hk : space.isKernel=false) :
    InStep roots (vmmSpaceDestroy space m) (vmmSpaceDestroy space n) ∧
      SameLeaves roots m₀ (vmmSpaceDestroy space m) ∧
      SamePages roots m₀ (vmmSpaceDestroy space m) ∧
      SameTables roots m₀ (vmmSpaceDestroy space m) ∧
      ∀ p, Memory.managed (vmmSpaceDestroy space m).pmm p=Memory.managed m₀.pmm p := by
  subst hroot
  obtain ⟨t,hmem,hfrees⟩ := h.twin.vmmSpaceDestroy space (Finset.mem_insert_self _ _) hk
  obtain ⟨hleaves,hpages,htables,hmanaged⟩ := h.sameLeaves hnew
  have hleaves' : SameLeaves roots m (vmmSpaceDestroy space m) :=
    fun _ _ => leafAt_mem hmem _ _
  have herase : (insert (space.pml4Physical/4096) roots).erase (space.pml4Physical/4096) =
      roots := Finset.erase_insert hnew
  simp only [herase] at t
  -- a dirty page was mapped in this space only, so nobody has it any more
  have t' := t.withDirty (fun _ => False) (by
    intro q hbit hkq hd
    obtain ⟨v,e,hv,he,rfl⟩ := h.dirtyOwn hd
    obtain ⟨hm,-,hlabel,hkp⟩ := h.twin.leaf_page (Finset.mem_insert_self _ _) hv he
    have hgone : (vmmSpaceDestroy space m).pmm.bitmap (addressPage e)=false := by
      apply t.inv.unused_page
      · show Memory.managed (vmmSpaceDestroy space m).pmm _ = true
        rw [hfrees.map.managed]
        exact hm
      · exact hfrees.table hlabel
      · apply occurrences_eq_zero.mpr
        rintro ⟨s,w⟩ hs hw
        rw [Finset.mem_product,Finset.mem_range] at hs
        obtain ⟨u,hu,hpage⟩ := Option.map_eq_some_iff.mp hw
        rw [leafAt_mem hmem] at hu
        have hsame := (h.own hv he (Finset.mem_insert_of_mem hs.1) hs.2 hu hpage).1
        exact hnew (hsame ▸ hs.1)
      · show kernelHeld m₀ _ = 0
        rw [← kernelHeld_congr h.kernelPages,kernelHeld,hkp]
        rfl
    rw [hgone] at hbit
    cases hbit)
  have hk' : (vmmSpaceDestroy space m).kernelPages=m₀.kernelPages :=
    hfrees.kernelPages.trans h.kernelPages
  rw [← kernelHeld_congr hk'] at t'
  refine ⟨⟨_,t',?_⟩,hleaves.trans hleaves',hpages.trans ?_,htables.trans ?_,
    fun p => (hfrees.map.managed p).trans (hmanaged p)⟩
  · exact (hapart.of_leaves hleaves).of_leaves hleaves'
  · exact SameContents.pages (fun _ _ _ _ _ _ => by rw [hmem]) hleaves'
  · exact fun _ _ _ _ => tableAt_mem hmem _ _

end Loading

end ConeOS.Memory
