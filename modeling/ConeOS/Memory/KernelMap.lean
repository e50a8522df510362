import ConeOS.Memory.KernelTables

namespace ConeOS.Memory

open ConeOS.Library Machine Function

/-- `vmm_map_page`, on the kernel's space. -/
def vmmMapPage (address physical : Nat) (flags : BitVec 64) (m : Machine) : Bool × Machine :=
  mapPageLocked ⟨m.kernelRoot,true⟩ address physical flags m

/-- `vmm_unmap_page`, on the kernel's space. -/
def vmmUnmapPage (address : Nat) (m : Machine) : Option Nat × Machine :=
  vmmSpaceUnmapPage ⟨m.kernelRoot,true⟩ address m

/-- The index of an address in the top-level table. -/
def rootIndex (address : Nat) : Nat := address/2 ^ 39%512

theorem rootIndex_upper {address : Nat} (h : 0xFFFF800000000000≤address)
    (hc : addressIsCanonical address=true) : 256≤rootIndex address := by
  simp only [addressIsCanonical,beq_iff_eq] at hc
  unfold rootIndex
  split at hc <;> omega

/-- The two entries lead to the same place, or nowhere. -/
def Agree (e e' : BitVec 64) : Prop := e=e' ∨ (present e=false ∧ present e'=false)

theorem Agree.refl (e : BitVec 64) : Agree e e := Or.inl rfl

theorem Agree.symm {e e' : BitVec 64} (h : Agree e e') : Agree e' e :=
  h.imp Eq.symm And.symm

theorem Agree.trans {e e' e'' : BitVec 64} (h : Agree e e') (h' : Agree e' e'') :
    Agree e e'' := by
  rcases h with rfl | ⟨he,he'⟩
  · exact h'
  · rcases h' with rfl | ⟨-,he''⟩
    · exact Or.inr ⟨he,he'⟩
    · exact Or.inr ⟨he,he''⟩

section Mapping

variable {m₀ m : Machine} {place₀ place : Nat → Option Place} {index : Nat}
  {created : List (Nat × Nat × Nat)} {flags : BitVec 64}

theorem newTable_page {page : Nat} (hp : page<2 ^ 40) (flags : BitVec 64) :
    addressPage (tableEntry page (vmmPresent ||| vmmWritable ||| (flags &&& vmmUser)))=page := by
  apply tableEntry_page hp
  intro i h1 h2
  simp only [BitVec.getLsbD_or,BitVec.getLsbD_and,vmmPresent_bit,vmmWritable_bit,vmmUser_bit]
  have hi : i≠0 ∧ i≠1 ∧ i≠2 := by omega
  simp [hi.1,hi.2.1,hi.2.2]

/-- The way down to the table of a page, with the tables created on it. -/
theorem descendCreating_spec (flags : BitVec 64) (is : List Nat) (table : Nat)
    (h : Descent m₀ place₀ index created m place)
    (hcreated : CreatedFrom m₀ m place index (is.length+1) created)
    (htable : IsTable m place table (is.length+1)) (hlength : is.length≤3)
    (hbound : ∀ i ∈ is, i<512) (hupper : is.length=3 → is.head? = some index ∧ 256 ≤ index) :
    ∃ place', Descent m₀ place₀ index (descendCreating flags is table created m).2.1
        (descendCreating flags is table created m).2.2 place' ∧
      CreatedFrom m₀ (descendCreating flags is table created m).2.2 place' index 1
        (descendCreating flags is table created m).2.1 ∧
      ∀ t, (descendCreating flags is table created m).1=some t →
        IsTable (descendCreating flags is table created m).2.2 place' t 1 := by
  induction is generalizing table m place created with
  | nil =>
    refine ⟨place,h,hcreated,?_⟩
    rintro t ⟨⟩
    exact htable
  | cons i is ih =>
    have hi : i<512 := hbound i List.mem_cons_self
    have hrest : ∀ j ∈ is, j<512 := fun j hj => hbound j (List.mem_cons_of_mem _ hj)
    have hshort : is.length≤3 := by simp at hlength; omega
    have hnot3 : is.length=3 → is.head? = some index ∧ 256 ≤ index := by
      intro h3
      simp [h3] at hlength
    have hstop : CreatedFrom m₀ m place index 1 created := hcreated.mono (by omega)
    have hfirst : table=m₀.kernelRoot/4096 → i=index ∧ 256 ≤ i := by
      rintro rfl
      have hroot : IsTable m place (m₀.kernelRoot/4096) 4 :=
        Or.inl ⟨by rw [h.only.kernelRoot],rfl⟩
      have hlevel := htable.level_unique h.only.tables hroot
      obtain ⟨hhead,hge⟩ := hupper (by omega)
      simp only [List.head?_cons,Option.some.injEq] at hhead
      omega
    unfold descendCreating
    by_cases hpres : present (m.entry table i)=true
    · simp only [hpres,Bool.not_true,Bool.false_eq_true,if_false]
      by_cases hhuge : huge (m.entry table i)=true
      · simp only [hhuge,if_true]
        exact ⟨place,h,hstop,fun t ht => by cases ht⟩
      simp only [hhuge]
      have hchild : place (addressPage (m.entry table i))=some ⟨is.length+1,table,i⟩ := by
        refine h.only.tables.child htable (by omega) hi ?_ hpres (by simpa using hhuge)
        intro h3
        obtain ⟨hhead,hge⟩ := hupper h3
        simp only [List.head?_cons,Option.some.injEq] at hhead
        omega
      exact ih _ h (hcreated.mono (by simp)) (Or.inr ⟨_,_,hchild⟩) hshort hrest hnot3
    have hfree : present (m.entry table i)=false := by simpa using hpres
    simp only [hfree,Bool.not_false,if_true,createTable,allocPage]
    rcases alloc_cases 0 h.only.pmm with hnone | ⟨c,hc,hc40,hsome⟩
    · rw [hnone]
      exact ⟨place,h,hstop,fun t ht => by cases ht⟩
    rw [hsome]
    simp only [setEntry_entry_self,newTable_page hc40]
    have hplaced {q : Nat} {pl : Place} (hq : place q=some pl) :
        update place c (some ⟨is.length+1,table,i⟩) q=some pl := by
      rw [update_of_ne (Spares.ne hc (h.only.tables.inUse hq).1)]
      exact hq
    refine ih c (h.link htable hlength hc hfree (newTable_page hc40 flags)
      (fun ht => (hfirst ht).1)) ?_ (Or.inr ⟨table,i,update_self ..⟩) hshort hrest
      hnot3
    refine ⟨is.length+1,Nat.le_refl _,update_self ..,?_,?_,?_⟩
    · rcases htable with hroot | ⟨t,j,ht⟩
      · exact Or.inl hroot
      · exact Or.inr ⟨t,j,hplaced ht⟩
    · rintro rfl
      obtain ⟨rfl,-⟩ := hfirst rfl
      refine ⟨rfl,?_⟩
      rcases h.rootEntry i with hsame | ⟨-,hno,-⟩
      · rwa [hsame] at hfree
      · exact hno
    · exact hcreated.congr rfl (fun q pl hq _ => hplaced hq)

/-- The allocator gives this many pages in a row. -/
def hasPages : Nat → Pmm → Bool
  | 0, _ => true
  | n+1, pmm =>
    match pmmAllocPage pmm with
    | (none,_) => false
    | (some _,pmm) => hasPages n pmm

/-- Below an entry that is not there, every level takes a page. -/
theorem descendCreating_short (flags : BitVec 64) (inv : PmmInv m.pmm) (is : List Nat) {table : Nat}
    (hused : m.pmm.bitmap table=true) (hfree : ∀ i ∈ is.head?, present (m.entry table i)=false)
    (hfew : hasPages is.length m.pmm=false) (created : List (Nat × Nat × Nat)) :
    (descendCreating flags is table created m).1=none := by
  induction is generalizing table m created with
  | nil => cases hfew
  | cons i is ih =>
    unfold descendCreating
    simp only [hfree i rfl,Bool.not_false,if_true,createTable,allocPage,alloc]
    rw [List.length_cons,hasPages,pmmAllocPage] at hfew
    rcases halloc : allocPageWithReserve 0 m.pmm with ⟨_ | address,pmm⟩
    · rfl
    obtain ⟨c,rfl,hc,rfl⟩ := alloc_some halloc
    have hc40 : c<2 ^ 40 := by
      have := (inv.clear c hc).2
      have := inv.addresses
      omega
    rw [halloc] at hfew
    dsimp only
    rw [Nat.mul_div_cancel c (by decide),setEntry_entry_self,newTable_page hc40]
    refine ih (inv.takePage hc).1 (update_self ..) (fun j _ => ?_) hfew _
    rw [setEntry_entry_of_ne _ _ (.inl (Spares.ne hc hused).symm),clearPage_entry,present_zero]

theorem Descent.agree (h : Descent m₀ place₀ index created m place)
    (hkept : created=[] ∨ present (m₀.entry (m₀.kernelRoot/4096) index)=true) (j : Nat) :
    Agree (m.entry (m₀.kernelRoot/4096) j) (m₀.entry (m₀.kernelRoot/4096) j) := by
  rcases h.rootEntry j with hsame | ⟨rfl,hno,hnow⟩
  · exact Or.inl hsame
  rcases hkept with rfl | hpres
  · rcases hnow with hnow | ⟨c,hc⟩
    · exact Or.inr ⟨hnow,hno⟩
    · cases hc
  · rw [hno] at hpres
    cases hpres

theorem vmmMapPage_spec (k : KernelTables m place) (inv : PmmInv m.pmm) {address : Nat}
    (hupper : 0xFFFF800000000000≤address) (physical : Nat) (flags : BitVec 64) :
    ∃ place', TablesOnly m place (vmmMapPage address physical flags m).2 place' ∧
      ((vmmMapPage address physical flags m).1=false ∨
          present (m.entry (m.kernelRoot/4096) (rootIndex address))=true →
        ∀ j, Agree ((vmmMapPage address physical flags m).2.entry (m.kernelRoot/4096) j)
          (m.entry (m.kernelRoot/4096) j)) := by
  have hsame : TablesOnly m place m place := TablesOnly.refl k inv
  have hstart : Descent m place (rootIndex address) [] m place :=
    ⟨hsame,fun j => Or.inl rfl⟩
  unfold vmmMapPage mapPageLocked
  by_cases hvalid : mapArgumentsValid ⟨m.kernelRoot,true⟩ address physical flags=true
  · simp only [hvalid,Bool.not_true,Bool.false_eq_true,if_false]
    have hcanonical : addressIsCanonical address=true := by
      simp only [mapArgumentsValid,Bool.not_eq_true',Bool.or_eq_false_iff] at hvalid
      simpa using hvalid.1.1.1.1.1
    have huser : hasFlag flags vmmUser=false := by
      simp only [mapArgumentsValid,Bool.not_eq_true',Bool.or_eq_false_iff] at hvalid
      simpa using hvalid.1.2
    have hbound : ∀ i ∈ tableIndices address, i<512 := by
      intro i hi
      simp only [tableIndices,List.mem_cons,List.not_mem_nil,or_false] at hi
      omega
    obtain ⟨place',hdescent,hcreated,hleaf⟩ :=
      descendCreating_spec flags (tableIndices address) (m.kernelRoot/4096) hstart
        trivial (Or.inl ⟨rfl,rfl⟩) (Nat.le_refl 3) hbound
        (fun _ => ⟨rfl,rootIndex_upper hupper hcanonical⟩)
    obtain ⟨place'',hback⟩ := hdescent.rollback hcreated
    have hfailed : ∃ place', TablesOnly m place (rollback
          (descendCreating flags (tableIndices address) (m.kernelRoot/4096) [] m).2.1
          (descendCreating flags (tableIndices address) (m.kernelRoot/4096) [] m).2.2) place' ∧
        ∀ j, Agree ((rollback
          (descendCreating flags (tableIndices address) (m.kernelRoot/4096) [] m).2.1
          (descendCreating flags (tableIndices address) (m.kernelRoot/4096) [] m).2.2).entry
            (m.kernelRoot/4096) j) (m.entry (m.kernelRoot/4096) j) :=
      ⟨place'',hback.only,hback.agree (Or.inl rfl)⟩
    revert hdescent hleaf hfailed
    rcases descendCreating flags (tableIndices address) (m.kernelRoot/4096) [] m with
      ⟨found,created,m'⟩
    intro hdescent hleaf ⟨place'',honly,hagree⟩
    cases found with
    | none => exact ⟨place'',honly,fun _ => hagree⟩
    | some table =>
      dsimp only at hdescent hleaf honly hagree ⊢
      by_cases htaken : present (m'.entry table (leafIndex address))=true
      · simp only [htaken,if_true]
        exact ⟨place'',honly,fun _ => hagree⟩
      simp only [htaken,huser,Bool.false_eq_true,if_false]
      have hset := hdescent.setLeaf (hleaf table rfl) (leafIndex address)
        (tableEntry (physical/4096) (vmmPresent ||| (flags &&& leafFlags)))
      refine ⟨place',hset.only,?_⟩
      rintro (hfail | hpres)
      · cases hfail
      · exact hset.agree (Or.inr hpres)
  · simp only [hvalid,Bool.not_false,if_true]
    exact ⟨place,hsame,fun _ j => Agree.refl _⟩

theorem vmmMapPage_refused {address physical : Nat}
    (h : mapArgumentsValid ⟨m.kernelRoot,true⟩ address physical flags=false) :
    (vmmMapPage address physical flags m).1=false := by
  simp [vmmMapPage,mapPageLocked,h]

theorem vmmMapPage_short (k : KernelTables m place) (inv : PmmInv m.pmm) {address physical : Nat}
    (hfew : hasPages 3 m.pmm=false)
    (hfree : present (m.entry (m.kernelRoot/4096) (rootIndex address))=false) :
    (vmmMapPage address physical flags m).1=false := by
  have hnone := descendCreating_short flags inv (tableIndices address) k.rootInUse
    (by rintro i ⟨⟩; exact hfree) hfew []
  unfold vmmMapPage mapPageLocked
  split
  · rfl
  dsimp only
  generalize descendCreating flags (tableIndices address) _ [] m=r at hnone ⊢
  obtain ⟨_,created,m'⟩ := r
  cases hnone
  rfl

end Mapping

/-- Entry `i` is the only one of the table that can be present. -/
def onlyEntry (m : Machine) (table i : Nat) : Bool :=
  (List.range 512).all (fun j => decide (j=i) || !present (m.entry table j))

/-- The page is mapped, and the last one below its entry of the kernel's root. -/
def lastPage (address : Nat) (m : Machine) : Bool :=
  addressIsCanonical address && address%4096 == 0 &&
    match tableIndices address, walkTables m (tableIndices address) (m.kernelRoot/4096) with
    | [_,i1,i2], some [t1,t2,t3] => present (m.entry t3 (leafIndex address)) &&
      (onlyEntry m t3 (leafIndex address) && onlyEntry m t2 i2 && onlyEntry m t1 i1)
    | _, _ => false

section Unmapping

variable {m₀ m m' : Machine} {place₀ place place' : Nat → Option Place} {l : Nat}
  {chain : List (Nat × Nat × Nat)} {t i address t1 t2 t3 : Nat}

theorem tableIsEmpty_setEntry (m : Machine) (table i : Nat) :
    tableIsEmpty (m.setEntry table i 0) table = onlyEntry m table i := by
  unfold tableIsEmpty onlyEntry
  congr 1
  funext j
  rw [setEntry_entry]
  by_cases hj : j=i
  · rw [if_pos ⟨rfl,hj⟩,present_zero]
    simp [hj]
  · simp [hj]

theorem pruneTables_cons (t q i : Nat) (rest : List (Nat × Nat × Nat)) (m : Machine) :
    pruneTables ((t,q,i) :: rest) m =
      if !tableIsEmpty m t then m
      else pruneTables rest ((m.setEntry q i 0).freePage (addressPage (m.entry q i))) := rfl

theorem onlyEntry_congr (h : m'.mem l=m.mem l) (i : Nat) :
    onlyEntry m' l i = onlyEntry m l i := by
  simp only [onlyEntry,entry,h]

/-- The tables of a page, the deepest first, each with the entry that leads to it. -/
def PruneChain (m : Machine) (place : Nat → Option Place) : Nat → List (Nat × Nat × Nat) → Prop
  | _, [] => True
  | l, (t,q,i) :: rest => place t=some ⟨l,q,i⟩ ∧ IsTable m place q (l+1) ∧
      addressPage (m.entry q i)=t ∧ PruneChain m place (l+1) rest

theorem PruneChain.congr (h : PruneChain m place l chain)
    (hroot : m'.kernelRoot=m.kernelRoot)
    (hplace : ∀ c p, place c=some p → l≤p.level → place' c=some p)
    (hmem : ∀ q l', IsTable m place q l' → l+1≤l' → m'.mem q=m.mem q) :
    PruneChain m' place' l chain := by
  induction chain generalizing l with
  | nil => trivial
  | cons x rest ih =>
    obtain ⟨ht,hq,haddr,hrest⟩ := h
    refine ⟨hplace _ _ ht (Nat.le_refl _),?_,?_,?_⟩
    · rcases hq with ⟨hq,hl⟩ | ⟨t,i,hq⟩
      · exact Or.inl ⟨by rw [hroot]; exact hq,hl⟩
      · exact Or.inr ⟨t,i,hplace _ _ hq (by dsimp only; omega)⟩
    · rw [entry,hmem _ _ hq (Nat.le_refl _)]
      exact haddr
    · exact ih hrest (fun c p hp hle => hplace c p hp (by omega))
        (fun q l' hq hle => hmem q l' hq (by omega))

theorem PruneChain.setLeaf (k : KernelTables m place)
    (h : PruneChain m place 1 chain) (ht : IsTable m place t 1) (i : Nat) (e : BitVec 64) :
    PruneChain (m.setEntry t i e) place 1 chain := by
  refine h.congr rfl (fun _ _ h _ => h) ?_
  intro q l' hq hle
  apply setEntry_mem_of_ne
  rintro rfl
  have := hq.level_unique k ht
  omega

theorem PruneChain.tail {q : Nat} {rest : List (Nat × Nat × Nat)}
    (k : KernelTables m place) (h : PruneChain m place l ((t,q,i) :: rest)) :
    PruneChain ((m.setEntry q i 0).freePage t) (update place t none) (l+1) rest := by
  obtain ⟨ht,hq,-,hrest⟩ := h
  refine hrest.congr rfl ?_ ?_
  · intro c p hp hle
    rw [update_of_ne]
    · exact hp
    rintro rfl
    rw [ht] at hp
    cases hp
    dsimp only at hle
    omega
  · intro p l' hp hle
    apply setEntry_mem_of_ne
    rintro rfl
    have := hp.level_unique k hq
    omega

theorem pruneTables_spec (h : TablesOnly m₀ place₀ m place)
    (hchain : PruneChain m place l chain) :
    ∃ place', TablesOnly m₀ place₀ (pruneTables chain m) place' := by
  induction chain generalizing m place l with
  | nil => exact ⟨place,h⟩
  | cons x rest ih =>
    obtain ⟨t,q,i⟩ := x
    unfold pruneTables
    split
    · exact ⟨place,h⟩
    · rw [hchain.2.2.1]
      exact ih (h.unlink hchain.1 hchain.2.1) (hchain.tail h.tables)

theorem walkTables_cons {table : Nat} {is found : List Nat}
    (h : walkTables m (i :: is) table=some found) :
    present (m.entry table i)=true ∧ huge (m.entry table i)=false ∧
      ∃ rest, walkTables m is (addressPage (m.entry table i))=some rest ∧
        found=addressPage (m.entry table i) :: rest := by
  unfold walkTables at h
  by_cases hpres : present (m.entry table i)=true
  · by_cases hhuge : huge (m.entry table i)=true
    · simp [hhuge] at h
    simp only [hpres,hhuge,Bool.not_true,Bool.or_self,Bool.false_eq_true,if_false,
      Option.map_eq_some_iff] at h
    obtain ⟨rest,hrest,rfl⟩ := h
    exact ⟨hpres,by simpa using hhuge,rest,hrest,rfl⟩
  · simp [hpres] at h

/-- The tables on the way to an address of the upper half. -/
theorem walkTables_chain (k : KernelTables m place)
    (hupper : 256≤rootIndex address)
    (h : walkTables m (tableIndices address) (m.kernelRoot/4096)=some [t1,t2,t3]) :
    PruneChain m place 1 [(t3,t2,address/2 ^ 21%512),(t2,t1,address/2 ^ 30%512),
      (t1,m.kernelRoot/4096,rootIndex address)] := by
  have hroot : IsTable m place (m.kernelRoot/4096) 4 := Or.inl ⟨rfl,rfl⟩
  obtain ⟨hp0,hh0,rest1,h1,heq⟩ := walkTables_cons h
  cases heq
  obtain ⟨hp1,hh1,rest2,h2,heq⟩ := walkTables_cons h1
  cases heq
  obtain ⟨hp2,hh2,rest3,h3,heq⟩ := walkTables_cons h2
  cases heq
  have hpl1 := k.child hroot (by omega) (Nat.mod_lt _ (by omega)) (fun _ => hupper) hp0 hh0
  have htable1 : IsTable m place _ 3 := Or.inr ⟨_,_,hpl1⟩
  have hpl2 := k.child htable1 (by omega) (Nat.mod_lt _ (by omega)) (by omega) hp1 hh1
  have htable2 : IsTable m place _ 2 := Or.inr ⟨_,_,hpl2⟩
  have hpl3 := k.child htable2 (by omega) (Nat.mod_lt _ (by omega)) (by omega) hp2 hh2
  exact ⟨hpl3,htable2,rfl,hpl2,htable1,rfl,hpl1,hroot,rfl,trivial⟩

theorem lastPage_eq
    (h : walkTables m (tableIndices address) (m.kernelRoot/4096)=some [t1,t2,t3]) :
    lastPage address m=(addressIsCanonical address && address%4096 == 0 &&
      (present (m.entry t3 (leafIndex address)) && (onlyEntry m t3 (leafIndex address) &&
        onlyEntry m t2 (address/2 ^ 21%512) && onlyEntry m t1 (address/2 ^ 30%512)))) := by
  rw [lastPage,h]
  rfl

/-- Unless the page is the last one below its entry of the root, pruning stops below the root. -/
theorem pruneTables_root (k : KernelTables m place) {i0 i1 i2 leaf : Nat}
    (hchain : PruneChain m place 1
      [(t3,t2,i2),(t2,t1,i1),(t1,m.kernelRoot/4096,i0)])
    (hlast : (onlyEntry m t3 leaf && onlyEntry m t2 i2 && onlyEntry m t1 i1)=false) (j : Nat) :
    (pruneTables [(t3,t2,i2),(t2,t1,i1),(t1,m.kernelRoot/4096,i0)]
      (m.setEntry t3 leaf 0)).entry (m.kernelRoot/4096) j=m.entry (m.kernelRoot/4096) j := by
  obtain ⟨hp3,-,-,hp2,-,-,hp1,-⟩ := hchain
  have hne (a b : Nat) {pa pb : Place} (ha : place a=some pa) (hb : place b=some pb)
      (hl : pa.level≠pb.level) : a≠b := by
    rintro rfl
    rw [ha] at hb
    cases hb
    exact hl rfl
  have hrootne (a : Nat) {pa : Place} (ha : place a=some pa) : m.kernelRoot/4096≠a := by
    rintro rfl
    rw [k.root] at ha
    cases ha
  have h23 : t2≠t3 := hne _ _ hp2 hp3 (by simp)
  have h13 : t1≠t3 := hne _ _ hp1 hp3 (by simp)
  have h12 : t1≠t2 := hne _ _ hp1 hp2 (by simp)
  rw [pruneTables_cons,tableIsEmpty_setEntry]
  cases h3 : onlyEntry m t3 leaf with
  | false =>
    rw [Bool.not_false,if_pos rfl]
    exact setEntry_entry_of_ne _ _ (Or.inl (hrootne t3 hp3))
  | true =>
    rw [Bool.not_true,if_neg Bool.false_ne_true,pruneTables_cons]
    have hempty : tableIsEmpty (((m.setEntry t3 leaf 0).setEntry t2 i2 0).freePage
        (addressPage ((m.setEntry t3 leaf 0).entry t2 i2))) t2 = onlyEntry m t2 i2 :=
      (tableIsEmpty_setEntry _ t2 i2).trans (onlyEntry_congr (setEntry_mem_of_ne _ _ _ h23) i2)
    rw [hempty]
    cases h2 : onlyEntry m t2 i2 with
    | false =>
      rw [Bool.not_false,if_pos rfl]
      exact (setEntry_entry_of_ne _ _ (Or.inl (hrootne t2 hp2))).trans
        (setEntry_entry_of_ne _ _ (Or.inl (hrootne t3 hp3)))
    | true =>
      rw [Bool.not_true,if_neg Bool.false_ne_true,pruneTables_cons]
      generalize hm2 : ((m.setEntry t3 leaf 0).setEntry t2 i2 0).freePage
        (addressPage ((m.setEntry t3 leaf 0).entry t2 i2))=m2
      have hmem2 {p : Nat} (h2 : p≠t2) (h3 : p≠t3) : m2.mem p=m.mem p := by
        rw [← hm2]
        exact (setEntry_mem_of_ne _ _ _ h2).trans (setEntry_mem_of_ne _ _ _ h3)
      have hempty : tableIsEmpty ((m2.setEntry t1 i1 0).freePage
          (addressPage (m2.entry t1 i1))) t1=false := by
        refine (tableIsEmpty_setEntry _ t1 i1).trans ?_
        rw [onlyEntry_congr (hmem2 h12 h13)]
        simpa [h3,h2] using hlast
      rw [hempty,Bool.not_false,if_pos rfl]
      refine (setEntry_entry_of_ne _ _ (Or.inl (hrootne t1 hp1))).trans ?_
      rw [entry,hmem2 (hrootne t2 hp2) (hrootne t3 hp3)]
      rfl

theorem vmmUnmapPage_spec (k : KernelTables m place) (inv : PmmInv m.pmm)
    (hupper : 0xFFFF800000000000≤address) :
    ∃ place', TablesOnly m place (vmmUnmapPage address m).2 place' ∧
      (lastPage address m=false → ∀ j,
        (vmmUnmapPage address m).2.entry (m.kernelRoot/4096) j =
          m.entry (m.kernelRoot/4096) j) := by
  have hsame : TablesOnly m place m place := TablesOnly.refl k inv
  unfold vmmUnmapPage vmmSpaceUnmapPage
  split
  · exact ⟨place,hsame,fun _ _ => rfl⟩
  rename_i hvalid
  simp only [Bool.or_eq_true,not_or] at hvalid
  have hcanonical : addressIsCanonical address=true := by simpa using hvalid.1.1
  have haligned : address%4096=0 := by simpa using hvalid.1.2
  dsimp only
  split
  · rename_i i0 i1 i2 t1 t2 t3 hindices hwalk
    cases hindices
    have hchain := walkTables_chain k (rootIndex_upper hupper hcanonical) hwalk
    have hleaf : IsTable m place t3 1 := Or.inr ⟨_,_,hchain.1⟩
    split
    · exact ⟨place,hsame,fun _ _ => rfl⟩
    rename_i hmapped
    have hpres : present (m.entry t3 (leafIndex address))=true := by simpa using hmapped
    have hset := hsame.setLeaf hleaf (leafIndex address) 0
    obtain ⟨place',hprune⟩ :=
      pruneTables_spec hset (hchain.setLeaf k hleaf (leafIndex address) 0)
    unfold rootIndex at hchain hprune
    dsimp only
    refine ⟨place',hprune,?_⟩
    rw [lastPage_eq hwalk,hcanonical,haligned,hpres,beq_self_eq_true,Bool.true_and,Bool.true_and,
      Bool.true_and]
    exact pruneTables_root k hchain
  · exact ⟨place,hsame,fun _ _ => rfl⟩

end Unmapping

end ConeOS.Memory
