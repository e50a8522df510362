import ConeOS.Memory.Map

namespace ConeOS.Memory

open ConeOS.Library Machine Function List

variable {r : Nat}

section Query

theorem canonical_of_lt {address : Nat} (h : address<2 ^ 47) :
    addressIsCanonical address=true := by
  have h1 : address/2 ^ 48=0 := by omega
  have h2 : address/2 ^ 47%2≠1 := by omega
  rw [addressIsCanonical,h1,if_neg h2]
  rfl

/-- The flags a query reports for a leaf whose tables restrict nothing. -/
def queryFlags (e : BitVec 64) : BitVec 64 :=
  vmmPresent ||| ((vmmWritable ||| vmmUser) &&& (e &&& (vmmWritable ||| vmmUser))) |||
    (0 ||| (e &&& vmmNoExecute)) ||| (e &&& vmmCopyOnWrite)

theorem queryFlags_bit (e : BitVec 64) (k : Nat) : (queryFlags e).getLsbD k =
    (decide (k=0) || (e.getLsbD k && (decide (k=1) || decide (k=2) || decide (k=63) ||
      decide (k=9)))) := by
  simp only [queryFlags,BitVec.getLsbD_or,BitVec.getLsbD_and,vmmPresent_bit,vmmWritable_bit,
    vmmUser_bit,vmmNoExecute_bit,vmmCopyOnWrite_bit,BitVec.ofNat_eq_ofNat,BitVec.getLsbD_zero]
  cases e.getLsbD k <;> cases decide (k=0) <;> cases decide (k=1) <;> cases decide (k=2) <;>
    cases decide (k=63) <;> cases decide (k=9) <;> rfl

theorem queryFlags_flags (e : BitVec 64) :
    hasFlag (queryFlags e) vmmUser=hasFlag e vmmUser ∧
      hasFlag (queryFlags e) vmmWritable=hasFlag e vmmWritable ∧
      hasFlag (queryFlags e) vmmCopyOnWrite=hasFlag e vmmCopyOnWrite ∧
      hasFlag (queryFlags e) vmmNoExecute=hasFlag e vmmNoExecute := by
  refine ⟨?_,?_,?_,?_⟩
  · rw [user_bit,user_bit,queryFlags_bit]
    simp
  · rw [writable_bit,writable_bit,queryFlags_bit]
    simp
  · rw [copyOnWrite_bit,copyOnWrite_bit,queryFlags_bit]
    simp
  · rw [noExecute_bit,noExecute_bit,queryFlags_bit]
    simp

/-- A table entry restricts nothing. -/
theorem TableEntry.unrestricted {e : BitVec 64} (h : TableEntry e) :
    (vmmWritable ||| vmmUser) &&& (e &&& (vmmWritable ||| vmmUser))=vmmWritable ||| vmmUser ∧
      0 ||| (e &&& vmmNoExecute)=0 := by
  have hw := h.writable
  have hu := h.user
  have hx := h.executes
  rw [writable_bit] at hw
  rw [user_bit] at hu
  rw [noExecute_bit] at hx
  constructor
  · apply BitVec.eq_of_getLsbD_eq
    intro k hk
    simp only [BitVec.getLsbD_or,BitVec.getLsbD_and,vmmWritable_bit,vmmUser_bit]
    by_cases h1 : k=1
    · subst h1
      rw [hw]
      rfl
    by_cases h2 : k=2
    · subst h2
      rw [hu]
      rfl
    · simp [h1,h2]
  · apply BitVec.eq_of_getLsbD_eq
    intro k hk
    simp only [BitVec.getLsbD_or,BitVec.getLsbD_and,vmmNoExecute_bit,BitVec.ofNat_eq_ofNat,
      BitVec.getLsbD_zero,Bool.false_or]
    by_cases h63 : k=63
    · subst h63
      rw [hx]
      rfl
    · simp [h63]

end Query

namespace Forest

variable {m : Machine} {roots : Finset Nat} {label : Nat → Option Label} {r : Nat}
  {q i address : Nat} {path : List Nat} {space : VmmSpace}

theorem walkTables_cons (f : Forest m roots label) (is : List Nat)
    (hq : label q=some (r,path)) (hl : path.length<3) (hi : i<userBound path) :
    (walkTables m (i :: is) q=none ∧ present (m.entry q i)=false) ∨
      ∃ c, label c=some (r, i :: path) ∧
        walkTables m (i :: is) q=(walkTables m is c).map (c :: ·) := by
  rw [walkTables]
  cases hp : present (m.entry q i) with
  | false => exact Or.inl ⟨by simp,rfl⟩
  | true =>
    obtain ⟨hte,hchild⟩ := f.child hq hl hi hp
    right
    refine ⟨_,hchild,?_⟩
    simp [hte.notHuge]

/-- Where the walk of the kernel ends. -/
theorem walkTables_eq (f : Forest m roots label) (hr : r ∈ roots)
    (ha : address<2 ^ 47) :
    (walkTables m (tableIndices address) r=none ∧ leafAt m r (address/4096)=none) ∨
      ∃ i0 i1 i2 t1 t2 t3, tableIndices address=[i0,i1,i2] ∧
        walkTables m (tableIndices address) r=some [t1,t2,t3] ∧
        label t1=some (r, [i0]) ∧ label t2=some (r, [i1,i0]) ∧
        label t3=some (r, [i2,i1,i0]) ∧ pathOf (address/4096)=[i2,i1,i0] := by
  have hv := vpn_lt ha
  have hvalid := pathOf_valid hv
  have hroot := (f.root r r).mpr ⟨rfl,hr⟩
  have hindices := tableIndices_eq address
  cases hpath : pathOf (address/4096) with
  | nil => cases hpath
  | cons i2 rest2 =>
  cases rest2 with
  | nil => cases hpath
  | cons i1 rest1 =>
  cases rest1 with
  | nil => cases hpath
  | cons i0 rest0 =>
  cases rest0 with
  | cons _ _ => cases hpath
  | nil =>
  rw [hpath] at hvalid hindices
  have hlist : tableIndices address=[i0,i1,i2] := by
    rw [hindices]
    rfl
  have hnone (h : ∀ q, label q≠some (r, [i2,i1,i0])) :
      leafAt m r (address/4096)=none := by
    apply f.leafAt_of_no_label hr hv
    rw [hpath]
    exact h
  obtain ⟨h2,-,h1,-,h0,-,-⟩ := hvalid
  rw [hlist]
  -- a missing table on the way leaves no table at the end
  rcases f.walkTables_cons [i1,i2] hroot (by simp) h0 with ⟨hw,hp⟩ | ⟨t1,ht1,hw⟩
  · left
    refine ⟨hw,hnone ?_⟩
    intro q hq
    obtain ⟨q',hq',-⟩ := f.parent hq
    obtain ⟨q'',hq'',-⟩ := f.parent hq'
    exact f.no_table_below hroot hp hq''
  rcases f.walkTables_cons [i2] ht1 (by simp) h1 with ⟨hw1,hp⟩ | ⟨t2,ht2,hw1⟩
  · left
    rw [hw,hw1]
    refine ⟨rfl,hnone ?_⟩
    intro q hq
    obtain ⟨q',hq',-⟩ := f.parent hq
    exact f.no_table_below ht1 hp hq'
  rcases f.walkTables_cons [] ht2 (by simp) h2 with ⟨hw2,hp⟩ | ⟨t3,ht3,hw2⟩
  · left
    rw [hw,hw1,hw2]
    exact ⟨rfl,hnone (fun q hq => f.no_table_below ht2 hp hq)⟩
  right
  refine ⟨i0,i1,i2,t1,t2,t3,rfl,?_,ht1,ht2,ht3,rfl⟩
  rw [hw,hw1,hw2]
  rfl

theorem queryFrom_cons (f : Forest m roots label) (address : Nat) (is : List Nat)
    (hq : label q=some (r,path)) (hl : path.length<3) (hi : i<userBound path)
    (hne : is≠[]) :
    (queryFrom m address (i :: is) q (vmmWritable ||| vmmUser) 0=none ∧
        present (m.entry q i)=false) ∨
      ∃ c, label c=some (r, i :: path) ∧
        queryFrom m address (i :: is) q (vmmWritable ||| vmmUser) 0 =
          queryFrom m address is c (vmmWritable ||| vmmUser) 0 := by
  rw [queryFrom]
  cases hp : present (m.entry q i) with
  | false => exact Or.inl ⟨by simp,rfl⟩
  | true =>
    obtain ⟨hte,hchild⟩ := f.child hq hl hi hp
    obtain ⟨heff,hnx⟩ := hte.unrestricted
    right
    refine ⟨_,hchild,?_⟩
    simp only [hte.notHuge,heff,hnx,Bool.not_true,Bool.and_false,Bool.or_false,
      List.isEmpty_iff,Bool.false_eq_true,if_false,hne]

theorem queryFrom_eq (f : Forest m roots label) (address : Nat)
    (is : List Nat) (j : Nat)
    (hq : label q=some (r,path)) (hv : ValidPath (is.reverse ++ path))
    (hlen : (is.reverse ++ path).length=3) :
    queryFrom m address (is ++ [j]) q (vmmWritable ||| vmmUser) 0 =
      match tableAt m r (is.reverse ++ path) with
      | none => none
      | some table =>
        if present (m.entry table j) then
          some (addressPage (m.entry table j)*4096+address%4096,
            queryFlags (m.entry table j))
        else none := by
  have hr := f.owner hq
  induction is generalizing q path with
  | nil =>
    simp only [reverse_nil,nil_append] at hv ⊢
    rw [(f.tableAt_iff hr hv).mpr hq]
    simp only [queryFrom]
    cases hp : present (m.entry q j) with
    | false => simp
    | true => simp [addressPage,queryFlags]
  | cons i is ih =>
    have happend : (i :: is).reverse ++ path=is.reverse ++ (i :: path) := by
      rw [reverse_cons,append_assoc,singleton_append]
    rw [happend] at hv hlen ⊢
    obtain ⟨hi,hl,-⟩ := hv.of_append
    rcases f.queryFrom_cons address (is ++ [j]) hq hl hi (by simp) with
      ⟨hnone,hp⟩ | ⟨c,hc,hstep⟩
    · have htable : tableAt m r (i :: path)=none := by
        cases h : tableAt m r (i :: path) with
        | none => rfl
        | some c => exact absurd ((f.tableAt_iff hr hv.of_append).mp h) (f.no_table_below hq hp)
      rw [cons_append,hnone,tableAt_append htable]
    · rw [cons_append,hstep,ih hc hv hlen]

/-- What `vmm_space_query` finds. -/
theorem vmmSpaceQuery_eq (f : Forest m roots label)
    (hr : space.pml4Physical/4096 ∈ roots) (ha : address<2 ^ 47) :
    vmmSpaceQuery space address m =
      (leafAt m (space.pml4Physical/4096) (address/4096)).map
        (fun e => (addressPage e*4096+address%4096,queryFlags e)) := by
  have hpath : (tableIndices address).reverse ++ []=pathOf (address/4096) := by
    rw [tableIndices_eq,reverse_reverse,append_nil]
  have hquery := f.queryFrom_eq address (tableIndices address) (leafIndex address) ((f.root _ _).mpr ⟨rfl,hr⟩)
    (by rw [hpath]; exact pathOf_valid (vpn_lt ha)) (by rw [hpath]; rfl)
  rw [vmmSpaceQuery,canonical_of_lt ha]
  simp only [Bool.not_true,Bool.false_eq_true,if_false]
  rw [hquery,hpath,leafAt,leafIndex_eq]
  cases tableAt m (space.pml4Physical/4096) (pathOf (address/4096)) with
  | none => rfl
  | some table =>
    dsimp only
    split_ifs
    · rfl
    · rfl

theorem vmmSpaceTranslate_eq (f : Forest m roots label)
    (hr : space.pml4Physical/4096 ∈ roots) (ha : address<2 ^ 47) :
    vmmSpaceTranslate space address m =
      (leafAt m (space.pml4Physical/4096) (address/4096)).map
        (fun e => addressPage e*4096+address%4096) := by
  rw [vmmSpaceTranslate,f.vmmSpaceQuery_eq hr ha,Option.map_map]
  rfl

end Forest

/-- Tables on the way to a page, the last one first, as unmap gives them back. -/
def Ladder (label : Nat → Option Label) (r : Nat) : List (Nat × Nat × Nat) → Prop
  | [] => True
  | (table,parent,i) :: rest =>
    (∃ path, label parent=some (r,path) ∧ label table=some (r, i :: path)) ∧
      (∀ x ∈ rest.head?, x.1=parent) ∧ Ladder label r rest

theorem Ladder.frame {label label' : Nat → Option Label}
    {tables : List (Nat × Nat × Nat)} (depth : Nat) (h : Ladder label r tables)
    (hhead : ∀ x ∈ tables.head?, ∀ path, label x.1=some (r,path) → path.length<depth)
    (hlabel : ∀ q path, label q=some (r,path) → path.length<depth →
      label' q=some (r,path)) : Ladder label' r tables := by
  induction tables with
  | nil => trivial
  | cons x rest ih =>
    obtain ⟨table,parent,i⟩ := x
    obtain ⟨⟨path,hparent,htable⟩,hnext,hrest⟩ := h
    have hshort : (i :: path).length<depth := hhead (table,parent,i) rfl _ htable
    have hshort' : path.length<depth := by
      simp only [length_cons] at hshort
      omega
    refine ⟨⟨path,hlabel _ _ hparent hshort',hlabel _ _ htable hshort⟩,hnext,ih hrest ?_⟩
    intro y hy path' hpath'
    rw [hnext y hy,hparent] at hpath'
    cases hpath'
    exact hshort'

/-- Calls that only give back: no new tables, and only tables of the space `r` are
written. -/
structure Frees (r : Nat) (label label' : Nat → Option Label) (m m' : Machine) : Prop where
  page : ∀ {q}, (∀ path, label q≠some (r,path)) → label' q=label q ∧ m'.mem q=m.mem q
  table : ∀ {q}, label q=none → label' q=none
  kernelPages : m'.kernelPages=m.kernelPages
  kernelRoot : m'.kernelRoot=m.kernelRoot
  map : SameMap m.pmm m'.pmm

theorem Frees.refl (r : Nat) (label : Nat → Option Label) (m : Machine) :
    Frees r label label m m :=
  ⟨fun _ => ⟨rfl,rfl⟩,fun h => h,rfl,rfl,SameMap.refl _⟩

theorem Frees.trans {l l' l'' : Nat → Option Label} {m m' m'' : Machine}
    (h : Frees r l l' m m') (h' : Frees r l' l'' m' m'') : Frees r l l'' m m'' := by
  refine ⟨?_,fun hq => h'.table (h.table hq),h'.kernelPages.trans h.kernelPages,
    h'.kernelRoot.trans h.kernelRoot,h.map.trans h'.map⟩
  intro q hq
  obtain ⟨hq',hmem⟩ := h.page hq
  obtain ⟨hq'',hmem'⟩ := h'.page (by rw [hq']; exact hq)
  exact ⟨hq''.trans hq',hmem'.trans hmem⟩

theorem Frees.setEntry {label : Nat → Option Label} (m : Machine) {q i : Nat}
    {path : List Nat} {e : BitVec 64} (hq : label q=some (r,path)) :
    Frees r label label m (m.setEntry q i e) := by
  refine ⟨?_,fun h => h,rfl,rfl,SameMap.refl _⟩
  intro p hp
  refine ⟨rfl,setEntry_mem_of_ne _ _ _ ?_⟩
  rintro rfl
  exact hp path hq

theorem setEntry_setEntry (m : Machine) (q i : Nat) (e e' : BitVec 64) :
    (m.setEntry q i e).setEntry q i e'=m.setEntry q i e' := by
  have hmem : ((m.setEntry q i e).setEntry q i e').mem=(m.setEntry q i e').mem := by
    funext p j
    show ((m.setEntry q i e).setEntry q i e').entry p j=(m.setEntry q i e').entry p j
    simp only [setEntry_entry]
    split_ifs <;> rfl
  show ({ m with mem := _ } : Machine) = { m with mem := _ }
  rw [Machine.mk.injEq]
  exact ⟨hmem,rfl,rfl,rfl⟩

namespace Twin

variable {g : Ghost} {m n : Machine} {r : Nat} {path : List Nat} {q address p i : Nat}
  {space : VmmSpace}

theorem walkTables_eq (t : Twin g m n) (is : List Nat)
    (hq : g.label q=some (r,path)) (hv : ValidPath (is.reverse ++ path)) :
    walkTables n is q=walkTables m is q := by
  induction is generalizing q path with
  | nil => rfl
  | cons i is ih =>
    rw [reverse_cons,append_assoc,singleton_append] at hv
    obtain ⟨hi,hl,-⟩ := hv.of_append
    rw [walkTables,walkTables,t.entry_label (by simp [hq])]
    cases hp : present (m.entry q i) with
    | false => simp
    | true => rw [ih (t.inv.forest.child hq hl hi hp).2 hv]

theorem vmmSpaceQuery_eq (t : Twin g m n)
    (hr : space.pml4Physical/4096 ∈ g.roots) (ha : address<2 ^ 47) :
    vmmSpaceQuery space address n=vmmSpaceQuery space address m := by
  rw [t.forest.vmmSpaceQuery_eq hr ha,t.inv.forest.vmmSpaceQuery_eq hr ha,
    t.leafAt_eq hr (vpn_lt ha)]

theorem freePage_frees (t : Twin g m n) (r : Nat) (hp : 0<g.held p) :
    Frees r g.label g.label m (m.freePage p) := by
  have hm := t.inv.managed_of_held hp
  obtain ⟨-,-,-,-,hsame⟩ := pmmFreePage_eq hm (t.inv.bitmap_of_held hm hp)
  exact ⟨fun _ => ⟨rfl,rfl⟩,fun h => h,rfl,rfl,hsame⟩

theorem releaseTable_frees (t : Twin g m n) {c : Nat}
    (hq : g.label q=some (r,path)) (hc : g.label c=some (r, i :: path)) :
    Frees r g.label (update g.label c none) m ((m.setEntry q i 0).freePage c) := by
  obtain ⟨hmanaged,-,-⟩ := t.inv.table (p := c) (by simp [hc])
  obtain ⟨-,-,-,-,hsame⟩ :=
    pmmFreePage_eq hmanaged (t.inv.bitmap_of_label (p := c) (by simp [hc]))
  refine ⟨?_,?_,rfl,rfl,hsame⟩
  · intro p hp
    have hpq : p≠q := by
      rintro rfl
      exact hp path hq
    have hpc : p≠c := by
      rintro rfl
      exact hp (i :: path) hc
    exact ⟨update_of_ne hpc ..,setEntry_mem_of_ne m i 0 hpq⟩
  · intro p hp
    by_cases h : p=c
    · rw [h,update_self]
    · rw [update_of_ne h]
      exact hp

theorem tableIsEmpty_eq (t : Twin g m n) (hq : g.label q≠none) :
    tableIsEmpty n q=tableIsEmpty m q := by
  simp only [tableIsEmpty,t.entry_label hq]

theorem pruneTables {tables : List (Nat × Nat × Nat)} (t : Twin g m n)
    (h : Ladder g.label r tables) :
    ∃ label', Twin { g with label := label' } (pruneTables tables m) (pruneTables tables n) ∧
      Frees r g.label label' m (pruneTables tables m) ∧
      SameLeaves g.roots m (Memory.pruneTables tables m) := by
  induction tables generalizing g m n with
  | nil => exact ⟨g.label,t,Frees.refl _ _ _,SameLeaves.refl _ _⟩
  | cons x rest ih =>
    obtain ⟨table,parent,i⟩ := x
    obtain ⟨⟨path,hparent,htable⟩,hnext,hrest⟩ := h
    have hpage : addressPage (m.entry parent i)=table := by
      obtain ⟨q,hq,-,hpage⟩ := t.inv.forest.parent htable
      rw [t.inv.forest.label_unique hq hparent] at hpage
      exact hpage
    rw [Memory.pruneTables,Memory.pruneTables,t.tableIsEmpty_eq (by simp [htable]),
      t.entry_label (by simp [hparent]),hpage]
    cases hempty : tableIsEmpty m table with
    | false => exact ⟨g.label,t,Frees.refl _ _ _,SameLeaves.refl _ _⟩
    | true =>
      simp only [tableIsEmpty,all_eq_true,mem_range,Bool.not_eq_true'] at hempty
      obtain ⟨t1,-,hleaves⟩ := t.releaseTable hparent htable hempty
      have hladder : Ladder (update g.label table none) r rest := by
        apply hrest.frame (path.length+1)
        · intro y hy path' hpath'
          rw [hnext y hy,hparent] at hpath'
          cases hpath'
          omega
        intro q path' hq hlt
        rw [update_of_ne]
        · exact hq
        · exact Forest.ne_of_length hq htable (by simp only [length_cons]; omega)
      obtain ⟨label',t',hf',hl'⟩ := ih t1 hladder
      exact ⟨label',t',(t.releaseTable_frees hparent htable).trans hf',hleaves.trans hl'⟩

/-- What `vmm_space_unmap_page` does to a user page. -/
theorem vmmSpaceUnmapPage (t : Twin g m n)
    (hr : space.pml4Physical/4096 ∈ g.roots) (ha : address<2 ^ 47)
    (halign : address%4096=0) :
    (leafAt m (space.pml4Physical/4096) (address/4096)=none ∧
        vmmSpaceUnmapPage space address m=(none,m) ∧
        vmmSpaceUnmapPage space address n=(none,n)) ∨
      ∃ e m' n' label', leafAt m (space.pml4Physical/4096) (address/4096)=some e ∧
        vmmSpaceUnmapPage space address m=(some (addressPage e*4096), m') ∧
        vmmSpaceUnmapPage space address n=(some (addressPage e*4096), n') ∧
        Twin { g with
          label := label'
          held := update g.held (addressPage e) (g.held (addressPage e)+1) } m' n' ∧
        Frees (space.pml4Physical/4096) g.label label' m m' ∧
        ∀ {r vpn}, r ∈ g.roots → vpn<userPages → leafAt m' r vpn =
          if r=space.pml4Physical/4096 ∧ vpn=address/4096 then none
          else leafAt m r vpn := by
  generalize hroot' : space.pml4Physical/4096=root at *
  have hv := vpn_lt ha
  have hroot := (t.inv.forest.root root root).mpr ⟨rfl,hr⟩
  have hpath : (tableIndices address).reverse ++ []=pathOf (address/4096) := by
    rw [tableIndices_eq,reverse_reverse,append_nil]
  have hupper : ¬ 0xFFFF800000000000≤address := by omega
  have hwalk := t.walkTables_eq (tableIndices address) hroot
    (by rw [hpath]; exact pathOf_valid hv)
  unfold Memory.vmmSpaceUnmapPage
  simp only [canonical_of_lt ha,halign,hroot',hupper,hwalk,Bool.not_true,bne_self_eq_false,
    decide_false,Bool.false_and,Bool.or_self,Bool.false_eq_true,if_false]
  rcases t.inv.forest.walkTables_eq hr ha with ⟨hw,hleaf⟩ |
    ⟨i0,i1,i2,t1,t2,t3,hlist,hw,ht1,ht2,ht3,hpathEq⟩
  · left
    rw [hw]
    exact ⟨hleaf,by simp,by simp⟩
  rw [hw,hlist]
  have hleaf : leafAt m root (address/4096) =
      if present (m.entry t3 (leafIndex address)) then some (m.entry t3 (leafIndex address))
      else none := by
    rw [t.inv.forest.leafAt_of_label (by rw [hpathEq]; exact ht3) hv,leafIndex_eq]
  simp only [t.entry_label (q := t3) (by simp [ht3])]
  cases hp : present (m.entry t3 (leafIndex address)) with
  | false =>
    left
    rw [hp] at hleaf
    exact ⟨hleaf,by simp,by simp⟩
  | true =>
    right
    rw [hp] at hleaf
    have hi : leafIndex address<512 := Nat.mod_lt _ (by decide)
    have tr := t.removeLeaf ht3 rfl hi hp
    have hladder : Ladder g.label root [(t3,t2,i2),(t2,t1,i1),(t1,root,i0)] := by
      refine ⟨⟨_,ht2,ht3⟩,?_,⟨_,ht1,ht2⟩,?_,⟨_,hroot,ht1⟩,?_,trivial⟩
      · simp
      · simp
      · simp
    obtain ⟨label',tp,hfrees,hleaves⟩ := tr.pruneTables hladder
    refine ⟨m.entry t3 (leafIndex address),_,_,label',hleaf,by simp,by simp,tp,?_,?_⟩
    · exact (Frees.setEntry m ht3).trans hfrees
    intro r' vpn hr' hv'
    have hzero : present 0=true →
        hasFlag 0 vmmUser=true ∧ managed m.pmm (addressPage 0)=true := by
      intro h
      rw [present_zero] at h
      cases h
    rw [hleaves hr' hv',t.inv.forest.leafAt_setLeaf ht3 rfl hi hzero hr' hv',← hpathEq,
      leafIndex_eq,vpnOf_pathOf _ hv,present_zero]
    rfl

theorem freePage_keeps (r : Nat) (label : Nat → Option Label)
    (hm : managed m.pmm p=true)
    (hb : m.pmm.bitmap p=true) (hmore : 1 < m.pmm.pageReferences p) :
    Keeps r label label m (m.freePage p) := by
  obtain ⟨-,hother,-,hbit,hsame⟩ := pmmFreePage_eq hm hb
  refine ⟨?_,rfl,rfl,hsame⟩
  intro q hq hl
  refine ⟨rfl,rfl,?_⟩
  show (dropReference p m.pmm).bitmap q=true
  by_cases h : q=p
  · rw [h]
    exact hbit.mpr hmore
  · rw [(hother q h).1]
    exact hq

/-- A page in hand takes the place of the one a leaf maps. -/
theorem moveLeaf (t : Twin g m n) {e : BitVec 64}
    (hq : g.label q=some (r,path)) (hl : path.length=3) (hi : i<512)
    (hold : present (m.entry q i)=true) (hp : present e=true)
    (hu : hasFlag e vmmUser=true) (hpage : addressPage e=p) (hheld : g.held p=1)
    (hne : addressPage (m.entry q i)≠p) (hk : m.kernelPages p=false)
    (hkold : m.kernelPages (addressPage (m.entry q i))=false) :
    Twin { g with held := update g.held p 0 }
      ((m.freePage (addressPage (m.entry q i))).setEntry q i e)
      ((n.freePage (addressPage (m.entry q i))).setEntry q i e) := by
  generalize hdef : addressPage (m.entry q i) = old at *
  have t1 := t.removeLeaf hq hl hi hold
  rw [hdef] at t1
  have hheld1 : update g.held old (g.held old+1) p=1 := by
    rw [update_of_ne (Ne.symm hne)]
    exact hheld
  have t2 := t1.insertLeaf (e := e) hq hl hi (by rw [setEntry_entry_self,present_zero]) hp hu
    (by simp only [hpage,hheld1]; omega) (by rw [hpage]; exact hk)
  rw [setEntry_setEntry,setEntry_setEntry] at t2
  have t3 := t2.freePage (p := old)
    (by simp only [hpage]; rw [update_of_ne hne,update_self]; omega)
    (fun h => by
      have h : m.kernelPages old=true := h
      rw [hkold] at h
      cases h)
  have hback : update
      (update (update g.held old (g.held old+1)) p 0) old (g.held old) =
      update g.held p 0 := by
    rw [update_comm (Ne.symm hne),update_back]
    rfl
  simp only [hheld1,hpage,update_of_ne hne,update_self,Nat.sub_self,Nat.add_sub_cancel,hback] at t3
  exact t3

end Twin

/-- A copy-on-write page became the task's own and holds what it held. -/
structure Resolved (roots : Finset Nat) (label : Nat → Option Label) (root vpn : Nat)
    (old e : BitVec 64) (m m' : Machine) : Prop where
  keeps : Keeps root label label m m'
  flags : LeafFlags e true true false (hasFlag old vmmNoExecute)
  contents : m'.mem (addressPage e)=m.mem (addressPage old)
  leaf : ∀ {r v}, r ∈ roots → v<userPages → leafAt m' r v =
    if r=root ∧ v=vpn then some e else leafAt m r v
  sole : ∀ {r v w}, r ∈ roots → v<userPages → leafAt m' r v=some w →
    addressPage w=addressPage e → r=root ∧ v=vpn

namespace Twin

variable {g : Ghost} {m n : Machine} {root q i : Nat} {path : List Nat} {old : BitVec 64}
  {e : BitVec 64}

/-- The last owner of a page keeps it. -/
theorem keepLeaf (t : Twin g m n) (hq : g.label q=some (root,path)) (hl : path.length=3)
    (hi : i<512) (hold : m.entry q i = old) (hp : present old=true)
    (hrefs : m.pmm.pageReferences (addressPage old)=1)
    (he : e=(old ||| vmmWritable) &&& ~~~vmmCopyOnWrite) :
    Twin g (m.setEntry q i e) (n.setEntry q i e) ∧
      Resolved g.roots g.label root (vpnOf path i) old e m (m.setEntry q i e) := by
  obtain ⟨hpath,hmod,hv⟩ := pathOf_vpnOf (t.inv.forest.valid hq) hl hi
  have hr := t.inv.forest.owner hq
  have hleaf : leafAt m root (vpnOf path i)=some old := by
    rw [t.inv.forest.leafAt_of_label (by rw [hpath]; exact hq) hv,hmod,hold,if_pos hp]
  obtain ⟨hmanaged,-,hlabel,huser⟩ := t.inv.bitmap_of_leaf hr hv hleaf
  obtain ⟨hmade,hpage⟩ := madeWritable old
  have hflags := hmade hp
  rw [huser] at hflags
  rw [← he] at hflags hpage
  have hleaf' {r v : Nat} (hr' : r ∈ g.roots) (hv' : v<userPages) :
      leafAt (m.setEntry q i e) r v =
        if r=root ∧ v=vpnOf path i then some e else leafAt m r v := by
    rw [t.inv.forest.leafAt_setLeaf hq hl hi (fun _ => ⟨hflags.user,by rw [hpage]; exact
      hmanaged⟩) hr' hv',if_pos hflags.present]
  have hcount := (t.inv.counted hmanaged).1
  rw [total,hrefs] at hcount
  refine ⟨t.changeLeaf hq hl hi (by rw [hold]; exact hp) hflags.present hflags.user
    (by rw [hold]; exact hpage),Keeps.setEntry m hq,hflags,?_,hleaf',?_⟩
  · rw [hpage]
    apply setEntry_mem_of_ne
    rintro rfl
    rw [hq] at hlabel
    cases hlabel
  intro r v w hr' hv' hlw hpw
  by_contra hhere
  rw [hleaf' hr' hv',if_neg hhere] at hlw
  have hone : mappings m g.roots (addressPage old)≤1 := by omega
  have hmem {a b : Nat} (ha : a ∈ g.roots) (hb : b<userPages) :
      ((a,b) : Nat × Nat) ∈ g.roots ×ˢ Finset.range userPages := by
    rw [Finset.mem_product,Finset.mem_range]
    exact ⟨ha,hb⟩
  have hpair := occurrences_one hone (hmem hr' hv') (hmem hr hv)
    (by simp [leafPage,hlw,hpw,hpage]) (by simp [leafPage,hleaf])
  exact hhere (Prod.mk.inj hpair)

/-- A shared page is copied to a fresh one. -/
theorem copyLeaf (t : Twin g m n) (hd : ∀ q, ¬ g.dirty q) (hq : g.label q=some (root,path))
    (hl : path.length=3) (hi : i<512) (hold : m.entry q i = old) (hp : present old=true)
    (hrefs : 1 < m.pmm.pageReferences (addressPage old)) {p : Nat}
    (hfree : m.pmm.bitmap p=false)
    (he : e=(tableEntry p (old &&& ~~~addressMask) ||| vmmWritable) &&& ~~~vmmCopyOnWrite)
    (ta : Twin { g with
      held := update g.held p 1
      dirty := fun q => q=p ∨ g.dirty q } (m.take p) (n.take p)) :
    let copied (k : Machine) :=
      (((k.take p).copyPage (addressPage old) p).freePage (addressPage old)).setEntry q i e
    Twin g (copied m) (copied n) ∧
      Resolved g.roots g.label root (vpnOf path i) old e m (copied m) := by
  intro copied
  obtain ⟨hpath,hmod,hv⟩ := pathOf_vpnOf (t.inv.forest.valid hq) hl hi
  have hr := t.inv.forest.owner hq
  have hleaf : leafAt m root (vpnOf path i)=some old := by
    rw [t.inv.forest.leafAt_of_label (by rw [hpath]; exact hq) hv,hmod,hold,if_pos hp]
  obtain ⟨hmanaged,hbit,hlabel,huser⟩ := t.inv.bitmap_of_leaf hr hv hleaf
  obtain ⟨hpm,hpl,hpmap,hpheld,hpk⟩ := t.inv.free_page hfree
  have hplt : p<2 ^ 40 := lt_of_lt_of_le (t.inv.pmm.bound p hpm) t.inv.pmm.addresses
  have hpne : addressPage old≠p := by
    intro h
    rw [h,hfree] at hbit
    cases hbit
  have hqp : q≠p := by
    rintro rfl
    rw [hq] at hpl
    cases hpl
  have hkold : m.kernelPages (addressPage old)=false := by
    by_contra hk
    have h1 := (t.inv.kernelHeld (by simpa using hk)).2
    have h2 := mappings_pos hr hv hleaf
    omega
  obtain ⟨hmp,hmu,hmx,hmpage⟩ := movedEntry old hplt
  obtain ⟨hmade,hpage⟩ := madeWritable (tableEntry p (old &&& ~~~addressMask))
  have hflags := hmade (by rw [hmp]; exact hp)
  rw [hmu,huser,hmx,← he] at hflags
  rw [← he,hmpage] at hpage
  -- the copy, then the leaf
  have tb : Twin { g with held := update g.held p 1 }
      ((m.take p).copyPage (addressPage old) p) ((n.take p).copyPage (addressPage old) p) :=
    ta.setPage hpl hpm (fun _ _ _ => t.mem hbit (hd _) hkold) (fun _ hi => t.tail hi)
      (fun q hne h => h.resolve_left hne)
  have hentry : ((m.take p).copyPage (addressPage old) p).entry q i = old := by
    rw [entry,copyPage,setPage_mem_of_ne _ _ hqp]
    exact hold
  have tm := tb.moveLeaf (e := e) hq hl hi (by rw [hentry]; exact hp) hflags.present hflags.user
    hpage (by simp) (by rw [hentry]; exact hpne) hpk (by rw [hentry]; exact hkold)
  rw [hentry] at tm
  simp only [update_back 1 hpheld] at tm
  have hkeeps : Keeps root g.label g.label m ((m.take p).copyPage (addressPage old) p) := by
    refine ⟨?_,rfl,rfl,(t.keeps_take root hfree).map⟩
    intro a ha hla
    have hap : a≠p := by
      rintro rfl
      rw [hfree] at ha
      cases ha
    exact ⟨setPage_mem_of_ne _ _ hap,((t.keeps_take root hfree).page ha hla).2⟩
  have hleafb {r v : Nat} (hr' : r ∈ g.roots) (hv' : v<userPages) :
      leafAt ((m.take p).copyPage (addressPage old) p) r v=leafAt m r v :=
    (ta.inv.leafAt_setPage hpl hr' hv' _).trans (leafAt_mem rfl r v)
  have hleaf' {r v : Nat} (hr' : r ∈ g.roots) (hv' : v<userPages) : leafAt (copied m) r v =
      if r=root ∧ v=vpnOf path i then some e else leafAt m r v := by
    show leafAt ((((m.take p).copyPage (addressPage old) p).setEntry q i e).freePage
      (addressPage old)) r v=_
    rw [leafAt_freePage,tb.inv.forest.leafAt_setLeaf hq hl hi
      (fun _ => ⟨hflags.user,by rw [hpage]; exact hpm⟩) hr' hv',if_pos hflags.present,
      hleafb hr' hv']
  refine ⟨tm,?_,hflags,?_,hleaf',?_⟩
  · apply (hkeeps.trans (freePage_keeps root _ hmanaged ?_ ?_)).trans (Keeps.setEntry _ hq)
    · exact (hkeeps.page hbit (by simp [hlabel])).2.2
    · show 1<update m.pmm.pageReferences p 1 (addressPage old)
      rw [update_of_ne hpne]
      exact hrefs
  · rw [hpage,setEntry_mem_of_ne _ _ _ (Ne.symm hqp)]
    show ((m.take p).setPage p _).mem p=_
    simp [Machine.take]
  intro r v w hr' hv' hlw hpw
  by_contra hhere
  rw [hleaf' hr' hv',if_neg hhere] at hlw
  have := mappings_pos hr' hv' hlw
  rw [hpw,hpage] at this
  omega

theorem cow_mask (hp : present e=true) (hu : hasFlag e vmmUser=true)
    (hc : hasFlag e vmmCopyOnWrite=true) :
    e &&& (vmmPresent ||| vmmUser ||| vmmCopyOnWrite) =
      vmmPresent ||| vmmUser ||| vmmCopyOnWrite := by
  rw [present_bit] at hp
  rw [user_bit] at hu
  rw [copyOnWrite_bit] at hc
  apply BitVec.eq_of_getLsbD_eq
  intro k hk
  simp only [BitVec.getLsbD_and,BitVec.getLsbD_or,vmmPresent_bit,vmmUser_bit,vmmCopyOnWrite_bit]
  by_cases h : k=0 ∨ k=2 ∨ k=9
  · rcases h with rfl | rfl | rfl <;> simp [hp,hu,hc]
  · rw [not_or,not_or] at h
    simp [h.1,h.2.1,h.2.2]

/-- The outcome of `vmm_space_resolve_cow` on a user address. -/
theorem vmmSpaceResolveCow (t : Twin g m n) (hd : ∀ q, ¬ g.dirty q) {space : VmmSpace}
    {address : Nat} (hr : space.pml4Physical/4096 ∈ g.roots) (ha : address<2 ^ 47) :
    (∃ result, result≤0 ∧ vmmSpaceResolveCow space address m=(result,m) ∧
        vmmSpaceResolveCow space address n=(result,n) ∧
        ∀ old, leafAt m (space.pml4Physical/4096) (address/4096)=some old →
          hasFlag old vmmWritable=false → hasFlag old vmmCopyOnWrite=true →
          m.allocUserPage=(none,m) ∧ m.pmm.pageReferences (addressPage old)≠1) ∨
      ∃ old e m' n', vmmSpaceResolveCow space address m=(1,m') ∧
        vmmSpaceResolveCow space address n=(1,n') ∧ Twin g m' n' ∧
        leafAt m (space.pml4Physical/4096) (address/4096)=some old ∧
        hasFlag old vmmWritable=false ∧ hasFlag old vmmCopyOnWrite=true ∧
        Resolved g.roots g.label (space.pml4Physical/4096) (address/4096) old e m m' := by
  generalize hroot' : space.pml4Physical/4096=root at *
  have hv := vpn_lt ha
  have hroot := (t.inv.forest.root root root).mpr ⟨rfl,hr⟩
  have hpath : (tableIndices address).reverse ++ []=pathOf (address/4096) := by
    rw [tableIndices_eq,reverse_reverse,append_nil]
  have hwalk := t.walkTables_eq (tableIndices address) hroot
    (by rw [hpath]; exact pathOf_valid hv)
  unfold Memory.vmmSpaceResolveCow
  simp only [canonical_of_lt ha,hroot',hwalk,Bool.not_true,Bool.false_eq_true,if_false]
  rcases t.inv.forest.walkTables_eq hr ha with ⟨hw,hnone⟩ |
    ⟨i0,i1,i2,t1,t2,t3,-,hw,-,-,ht3,hpathEq⟩
  · left
    rw [hw]
    refine ⟨0,le_refl _,rfl,rfl,fun old hold => ?_⟩
    rw [hnone] at hold
    cases hold
  rw [hw]
  simp only [t.entry_label (q := t3) (by simp [ht3]),t.pmm]
  have hi : leafIndex address<512 := Nat.mod_lt _ (by decide)
  have hvpn : vpnOf [i2,i1,i0] (leafIndex address)=address/4096 := by
    rw [← hpathEq,leafIndex_eq,vpnOf_pathOf _ hv]
  have hleaf : leafAt m root (address/4096) =
      if present (m.entry t3 (leafIndex address)) then some (m.entry t3 (leafIndex address))
      else none := by
    rw [t.inv.forest.leafAt_of_label (by rw [hpathEq]; exact ht3) hv,leafIndex_eq]
  generalize hold : m.entry t3 (leafIndex address) = old at *
  by_cases hcond : (old &&& (vmmPresent ||| vmmUser ||| vmmCopyOnWrite)) ≠
      (vmmPresent ||| vmmUser ||| vmmCopyOnWrite) ∨ hasFlag old vmmWritable=true
  · left
    rw [if_pos hcond,if_pos hcond]
    refine ⟨0,le_refl _,rfl,rfl,fun e he hw hc => ?_⟩
    have hu := (t.inv.bitmap_of_leaf hr hv he).2.2.2
    rw [hleaf] at he
    split_ifs at he with hp
    cases he
    exact absurd hcond (not_or.mpr ⟨not_not.mpr (cow_mask hp hu hc),by rw [hw]; simp⟩)
  rw [if_neg hcond,if_neg hcond]
  rw [not_or,not_not,Bool.not_eq_true] at hcond
  obtain ⟨hbits,hwrite⟩ := hcond
  have hflag (k : Nat) (hk : k=0 ∨ k=9) : old.getLsbD k=true := by
    have h := congrArg (fun w : BitVec 64 => w.getLsbD k) hbits
    simp only [BitVec.getLsbD_and,BitVec.getLsbD_or,vmmPresent_bit,vmmUser_bit,
      vmmCopyOnWrite_bit] at h
    rcases hk with rfl | rfl <;> simpa using h
  have hp : present old=true := by
    rw [present_bit]
    exact hflag 0 (Or.inl rfl)
  have hcow : hasFlag old vmmCopyOnWrite=true := by
    rw [copyOnWrite_bit]
    exact hflag 9 (Or.inr rfl)
  rw [if_pos hp] at hleaf
  obtain ⟨hmanaged,hbit,-,-⟩ := t.inv.bitmap_of_leaf hr hv hleaf
  rw [pmmPageReferences_eq hmanaged hbit]
  have h0 : m.pmm.pageReferences (addressPage old)≠0 := by
    have hpos := mappings_pos hr hv hleaf
    rw [(t.inv.counted hmanaged).1,total]
    omega
  rw [if_neg h0,if_neg h0]
  by_cases h1 : m.pmm.pageReferences (addressPage old)=1
  · rw [if_pos h1,if_pos h1]
    right
    obtain ⟨tk,hres⟩ := t.keepLeaf ht3 rfl hi hold hp h1 rfl
    rw [hvpn] at hres
    exact ⟨old,_,_,_,rfl,rfl,tk,hleaf,hwrite,hcow,hres⟩
  rw [if_neg h1,if_neg h1]
  unfold allocUserPage
  rcases t.alloc pmmKernelReservePages with ⟨hm,hn⟩ | ⟨p,hfree,-,hm,hn,ta⟩
  · left
    rw [hm,hn]
    refine ⟨-1,by omega,rfl,rfl,fun e he _ _ => ⟨rfl,?_⟩⟩
    rw [hleaf] at he
    cases he
    exact h1
  · right
    rw [hm,hn]
    obtain ⟨tc,hres⟩ := t.copyLeaf hd ht3 rfl hi hold hp (by omega) hfree rfl ta
    rw [hvpn] at hres
    exact ⟨old,_,_,_,rfl,rfl,tc,hleaf,hwrite,hcow,hres⟩

end Twin

end ConeOS.Memory
