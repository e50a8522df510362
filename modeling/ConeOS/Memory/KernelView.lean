import ConeOS.Memory.KernelMap

namespace ConeOS.Memory

open ConeOS.Library Machine List

/-- `vmm_space_query` on the kernel's space. -/
def kernelQuery (address : Nat) (m : Machine) : Option (Nat × BitVec 64) :=
  vmmSpaceQuery ⟨m.kernelRoot,true⟩ address m

/-- The walk reads entry `j` of the table `q`. -/
def Visits (m : Machine) : List Nat → Nat → Nat → Nat → Prop
  | [], _, _, _ => False
  | i :: is, table, q, j => (q=table ∧ j=i) ∨
      (present (m.entry table i)=true ∧ huge (m.entry table i)=false ∧
        Visits m is (addressPage (m.entry table i)) q j)

/-- Entry `i` of the table `q` leads to the table `c`. -/
def Leads (m : Machine) (q i c : Nat) : Prop :=
  present (m.entry q i)=true ∧ huge (m.entry q i)=false ∧ addressPage (m.entry q i)=c

instance (m : Machine) (q i c : Nat) : Decidable (Leads m q i c) :=
  inferInstanceAs (Decidable (_ ∧ _ ∧ _))

/-- An entry above the last level that leads nowhere, or to a table with nothing in it. -/
def Dead (m : Machine) (e : BitVec 64) : Prop :=
  present e=false ∨ (huge e=false ∧ ∀ i<512, present (m.entry (addressPage e) i)=false)

/-- The indices that lead through tables of the upper half, before the one into the last. -/
structure UpperPath (is : List Nat) : Prop where
  length : is.length≤3
  bound : ∀ i ∈ is, i<512
  upper : is.length=3 → ∀ i, is.head? = some i → 256 ≤ i

section Paths

variable {m : Machine} {place : Nat → Option Place} {address table i : Nat} {is : List Nat}

theorem UpperPath.tail (h : UpperPath (i :: is)) : UpperPath is := by
  have hlength := h.length
  simp only [length_cons] at hlength
  exact ⟨by omega,fun j hj => h.bound j (mem_cons_of_mem _ hj),by omega⟩

theorem UpperPath.head_lt (h : UpperPath (i :: is)) : i<512 := h.bound i mem_cons_self

theorem UpperPath.head_upper (h : UpperPath (i :: is)) (h3 : is.length+1=3) : 256 ≤ i :=
  h.upper h3 i rfl

theorem UpperPath.child (h : UpperPath (i :: is)) (k : KernelTables m place)
    (htable : IsTable m place table (is.length+1+1)) (hpres : present (m.entry table i)=true)
    (hhuge : huge (m.entry table i)=false) :
    place (addressPage (m.entry table i))=some ⟨is.length+1,table,i⟩ :=
  k.child htable (by omega) h.head_lt h.head_upper hpres hhuge

theorem upperPath_tableIndices (haddr : 0xFFFF800000000000≤address)
    (hc : addressIsCanonical address=true) : UpperPath (tableIndices address) := by
  refine ⟨Nat.le_refl 3,?_,?_⟩
  · intro j hj
    simp only [tableIndices,mem_cons,not_mem_nil,or_false] at hj
    omega
  · intro _ j hj
    cases hj
    exact rootIndex_upper haddr hc

theorem leafIndex_lt (address : Nat) : leafIndex address<512 := Nat.mod_lt _ (by omega)

end Paths

section Queries

variable {m m' : Machine} {place : Nat → Option Place} {address table i : Nat} {is : List Nat}
  {effective noExecute : BitVec 64}

theorem queryFrom_absent (h : present (m.entry table i)=false) :
    queryFrom m address (i :: is) table effective noExecute=none := by
  rw [queryFrom,h]
  rfl

theorem queryFrom_down (hpres : present (m.entry table i)=true)
    (hhuge : huge (m.entry table i)=false) (his : is≠[]) :
    queryFrom m address (i :: is) table effective noExecute =
      queryFrom m address is (addressPage (m.entry table i))
        (effective &&& (m.entry table i &&& (vmmWritable ||| vmmUser)))
        (noExecute ||| (m.entry table i &&& vmmNoExecute)) := by
  have hempty : is.isEmpty=false := by simpa using his
  rw [queryFrom]
  simp [hpres,hhuge,hempty]

theorem queryFrom_page (hpres : present (m.entry table i)=true) :
    queryFrom m address [i] table effective noExecute =
      some (addressPage (m.entry table i)*4096+address%4096,
        vmmPresent ||| (effective &&& (m.entry table i &&& (vmmWritable ||| vmmUser))) |||
          (noExecute ||| (m.entry table i &&& vmmNoExecute)) |||
          (m.entry table i &&& vmmCopyOnWrite)) := by
  rw [queryFrom]
  simp [hpres,addressPage]

theorem queryFrom_dead (h : Dead m (m.entry table i)) (his : is≠[])
    (hbound : ∀ j ∈ is, j<512) :
    queryFrom m address (i :: is) table effective noExecute=none := by
  by_cases hpres : present (m.entry table i)=true
  · rcases h with hno | ⟨hhuge,hempty⟩
    · rw [hno] at hpres
      cases hpres
    · rw [queryFrom_down hpres hhuge his]
      obtain ⟨j,js,rfl⟩ := exists_cons_of_ne_nil his
      exact queryFrom_absent (hempty j (hbound j mem_cons_self))
  · exact queryFrom_absent (by simpa using hpres)

theorem queryFrom_huge (hsame : m'.entry table i=m.entry table i)
    (hhuge : huge (m.entry table i)=true) :
    queryFrom m' address (i :: is) table effective noExecute =
      queryFrom m address (i :: is) table effective noExecute := by
  simp only [queryFrom,hsame,hhuge,Bool.or_true,if_true]

/-- A walk finds the same where the entries it reads agree, or are dead on both sides. -/
theorem queryFrom_congr (k : KernelTables m place) (path : UpperPath is) {j : Nat} (hj : j<512)
    (htable : IsTable m place table (is.length+1))
    (h : ∀ q l i, IsTable m place q l → Visits m (is ++ [j]) table q i →
      Agree (m'.entry q i) (m.entry q i) ∨
        (1<l ∧ Dead m (m.entry q i) ∧ Dead m' (m'.entry q i))) :
    queryFrom m' address (is ++ [j]) table effective noExecute =
      queryFrom m address (is ++ [j]) table effective noExecute := by
  induction is generalizing table effective noExecute with
  | nil =>
    rcases h table 1 j htable (Or.inl ⟨rfl,rfl⟩) with (hsame | ⟨hno',hno⟩) | ⟨hlevel,-⟩
    · simp only [nil_append,queryFrom,hsame]
    · exact (queryFrom_absent hno').trans (queryFrom_absent hno).symm
    · omega
  | cons i is ih =>
    have hrest : ∀ j' ∈ is ++ [j], j'<512 := by
      intro j' hj'
      rcases mem_append.mp hj' with hj' | hj'
      · exact path.tail.bound j' hj'
      · rw [mem_singleton.mp hj']
        exact hj
    have hne : is ++ [j]≠[] := by simp
    rw [cons_append]
    rcases h table _ i htable (Or.inl ⟨rfl,rfl⟩) with (hsame | ⟨hno',hno⟩) |
      ⟨hlevel,hdead,hdead'⟩
    · by_cases hpres : present (m.entry table i)=true
      · by_cases hhuge : huge (m.entry table i)=true
        · exact queryFrom_huge hsame hhuge
        have hsmall : huge (m.entry table i)=false := by simpa using hhuge
        rw [queryFrom_down hpres hsmall hne,
          queryFrom_down (by rw [hsame]; exact hpres) (by rw [hsame]; exact hsmall) hne,hsame]
        refine ih path.tail (Or.inr ⟨_,_,path.child k htable hpres hsmall⟩) ?_
        intro q l i' hq hvisit
        exact h q l i' hq (Or.inr ⟨hpres,hsmall,hvisit⟩)
      · have hno : present (m.entry table i)=false := by simpa using hpres
        have hno' : present (m'.entry table i)=false := by rw [hsame]; exact hno
        rw [queryFrom_absent hno',queryFrom_absent hno]
    · rw [queryFrom_absent hno',queryFrom_absent hno]
    · rw [queryFrom_dead hdead hne hrest,queryFrom_dead hdead' hne hrest]

theorem kernelQuery_congr (k : KernelTables m place) (hroot : m'.kernelRoot=m.kernelRoot)
    (haddr : 0xFFFF800000000000≤address)
    (h : ∀ q l j, IsTable m place q l →
      Visits m (tableIndices address ++ [leafIndex address]) (m.kernelRoot/4096) q j →
      Agree (m'.entry q j) (m.entry q j) ∨
        (1<l ∧ Dead m (m.entry q j) ∧ Dead m' (m'.entry q j))) :
    kernelQuery address m'=kernelQuery address m := by
  rw [kernelQuery,kernelQuery,vmmSpaceQuery,vmmSpaceQuery,hroot]
  by_cases hcanonical : addressIsCanonical address=true
  · simp only [hcanonical,Bool.not_true,Bool.false_eq_true,if_false]
    exact queryFrom_congr k (upperPath_tableIndices haddr hcanonical) (leafIndex_lt address)
      (Or.inl ⟨rfl,rfl⟩) h
  · simp [hcanonical]

end Queries

section Walks

variable {m : Machine} {place : Nat → Option Place} {address table i : Nat} {is : List Nat}
  {t1 t2 t3 t a b : Nat}

theorem walkTables_down (hpres : present (m.entry table i)=true)
    (hhuge : huge (m.entry table i)=false) :
    walkTables m (i :: is) table =
      (walkTables m is (addressPage (m.entry table i))).map
        (addressPage (m.entry table i) :: ·) := by
  rw [walkTables]
  simp [hpres,hhuge]

theorem walkTables_iff :
    walkTables m (tableIndices address) table=some [t1,t2,t3] ↔
      Leads m table (rootIndex address) t1 ∧ Leads m t1 (address/2 ^ 30%512) t2 ∧
        Leads m t2 (address/2 ^ 21%512) t3 := by
  constructor
  · intro h
    obtain ⟨hp0,hh0,rest1,h1,heq⟩ := walkTables_cons h
    cases heq
    obtain ⟨hp1,hh1,rest2,h2,heq⟩ := walkTables_cons h1
    cases heq
    obtain ⟨hp2,hh2,rest3,h3,heq⟩ := walkTables_cons h2
    cases heq
    exact ⟨⟨hp0,hh0,rfl⟩,⟨hp1,hh1,rfl⟩,⟨hp2,hh2,rfl⟩⟩
  · intro ⟨⟨hp0,hh0,h0⟩,⟨hp1,hh1,h1⟩,⟨hp2,hh2,h2⟩⟩
    unfold rootIndex at hp0 hh0 h0
    rw [tableIndices,walkTables_down hp0 hh0,h0,walkTables_down hp1 hh1,h1,
      walkTables_down hp2 hh2,h2]
    rfl

theorem walkTables_found {found : List Nat}
    (h : walkTables m (tableIndices address) table=some found) :
    ∃ t1 t2 t3, found=[t1,t2,t3] := by
  obtain ⟨-,-,rest1,h1,rfl⟩ := walkTables_cons h
  obtain ⟨-,-,rest2,h2,rfl⟩ := walkTables_cons h1
  obtain ⟨-,-,rest3,h3,rfl⟩ := walkTables_cons h2
  cases h3
  exact ⟨_,_,_,rfl⟩

/-- A walk that reads a table of the last level has come down to it. -/
theorem visits_last (k : KernelTables m place) (path : UpperPath is)
    (htable : IsTable m place table (is.length+1)) {j : Nat} (ht : IsTable m place t 1)
    (h : Visits m (is ++ [i]) table t j) :
    ∃ found, walkTables m is table=some found ∧ (table :: found).getLast? = some t ∧ j=i := by
  induction is generalizing table with
  | nil =>
    rcases h with ⟨rfl,rfl⟩ | ⟨-,-,h⟩
    · exact ⟨[],rfl,rfl,rfl⟩
    · exact h.elim
  | cons i₀ is ih =>
    rcases h with ⟨rfl,-⟩ | ⟨hpres,hhuge,h⟩
    · have hlevel := ht.level_unique k htable
      simp at hlevel
    obtain ⟨found,hfound,hlast,hj⟩ :=
      ih path.tail (Or.inr ⟨_,_,path.child k htable hpres hhuge⟩) h
    refine ⟨addressPage (m.entry table i₀) :: found,?_,?_,hj⟩
    · rw [walkTables_down hpres hhuge,hfound]
      rfl
    · rw [List.getLast?_cons_cons]
      exact hlast

theorem walkTables_setLeaf (k : KernelTables m place)
    (ht : IsTable m place t 1) (j : Nat) (e : BitVec 64) (hupper : 256≤rootIndex address)
    (h : walkTables m (tableIndices address) (m.kernelRoot/4096)=some [t1,t2,t3]) :
    walkTables (m.setEntry t j e) (tableIndices address) (m.kernelRoot/4096) =
      some [t1,t2,t3] := by
  obtain ⟨-,h2,-,-,h1,-,-,h0,-⟩ := walkTables_chain k hupper h
  rw [walkTables_iff] at h ⊢
  have hsame {q l i c : Nat} (hq : IsTable m place q (l+1+1)) (hleads : Leads m q i c) :
      Leads (m.setEntry t j e) q i c := by
    rw [Leads,setEntry_entry_of_ne]
    · exact hleads
    left
    rintro rfl
    have := hq.level_unique k ht
    omega
  exact ⟨hsame h0 h.1,hsame h1 h.2.1,hsame h2 h.2.2⟩

theorem samePage_indices (h : a/4096=b/4096) :
    tableIndices a=tableIndices b ∧ leafIndex a=leafIndex b := by
  simp only [tableIndices,leafIndex,List.cons.injEq,and_true]
  omega

theorem samePage_canonical (h : a/4096=b/4096) :
    addressIsCanonical a=addressIsCanonical b := by
  have h48 : a/2 ^ 48=b/2 ^ 48 := by omega
  have h47 : a/2 ^ 47=b/2 ^ 47 := by omega
  rw [addressIsCanonical,addressIsCanonical,h48,h47]

/-- Only the addresses of one page lead to an entry of the last level. -/
theorem walkTables_samePage (k : KernelTables m place) {u1 u2 : Nat}
    (ha : 0xFFFF800000000000≤a) (hca : addressIsCanonical a=true)
    (hb : 0xFFFF800000000000≤b) (hcb : addressIsCanonical b=true)
    (h : walkTables m (tableIndices a) (m.kernelRoot/4096)=some [t1,t2,t3])
    (h' : walkTables m (tableIndices b) (m.kernelRoot/4096)=some [u1,u2,t3])
    (hleaf : leafIndex a=leafIndex b) : a/4096=b/4096 := by
  obtain ⟨h3,-,-,h2,-,-,h1,-⟩ := walkTables_chain k (rootIndex_upper ha hca) h
  obtain ⟨h3',-,-,h2',-,-,h1',-⟩ := walkTables_chain k (rootIndex_upper hb hcb) h'
  rw [h3] at h3'
  simp only [Option.some.injEq,Place.mk.injEq,true_and] at h3'
  obtain ⟨rfl,hi2⟩ := h3'
  rw [h2] at h2'
  simp only [Option.some.injEq,Place.mk.injEq,true_and] at h2'
  obtain ⟨rfl,hi1⟩ := h2'
  rw [h1] at h1'
  simp only [Option.some.injEq,Place.mk.injEq,true_and] at h1'
  simp only [addressIsCanonical,beq_iff_eq] at hca hcb
  unfold rootIndex at h1'
  unfold leafIndex at hleaf
  split at hca <;> split at hcb <;> omega

end Walks

/-- The flags of a page that can be written and not executed. -/
def stackFlags : BitVec 64 := vmmWritable ||| vmmNoExecute

section Views

variable {m : Machine} {place : Nat → Option Place} {address : Nat} {q l i c a t1 t2 t3 b : Nat}

theorem kernelQuery_canonical (hc : addressIsCanonical address=true) :
    kernelQuery address m=queryFrom m address (tableIndices address ++ [leafIndex address])
      (m.kernelRoot/4096) (vmmWritable ||| vmmUser) 0 := by
  rw [kernelQuery,vmmSpaceQuery,hc]
  rfl

/-- A new empty table maps nothing. -/
theorem kernelQuery_link (k : KernelTables m place) {e : BitVec 64}
    (hq : IsTable m place q (l+1)) (hl : l≠0) (hc : m.pmm.bitmap c=false)
    (hfree : present (m.entry q i)=false) (hpage : addressPage e=c) (hhuge : huge e=false)
    (haddr : 0xFFFF800000000000≤address) :
    kernelQuery address ((clearPage c { m with pmm := takePage c m.pmm }).setEntry q i e) =
      kernelQuery address m := by
  refine kernelQuery_congr k rfl haddr ?_
  intro p l' j hp _
  have hpc : p≠c := Spares.ne hc (hp.inUse k)
  by_cases hhere : p=q ∧ j=i
  · obtain ⟨rfl,rfl⟩ := hhere
    have hlevel := hp.level_unique k hq
    refine Or.inr ⟨by omega,Or.inl hfree,?_⟩
    rw [setEntry_entry_self]
    refine Or.inr ⟨hhuge,?_⟩
    intro i' _
    rw [hpage,setEntry_entry_of_ne _ e (Or.inl (Ne.symm hpc)),clearPage_entry,present_zero]
  · left
    rw [linked_entry m e hpc (not_and_or.mp hhere)]
    exact Agree.refl _

/-- Nor does a table map anything that is taken away empty. -/
theorem kernelQuery_unlink (k : KernelTables m place)
    (hq : IsTable m place q (l+1)) (hl : l≠0) (hpage : addressPage (m.entry q i)=c)
    (hhuge : huge (m.entry q i)=false) (hempty : ∀ j<512, present (m.entry c j)=false)
    (haddr : 0xFFFF800000000000≤address) :
    kernelQuery address ((m.setEntry q i 0).freePage c)=kernelQuery address m := by
  refine kernelQuery_congr k rfl haddr ?_
  intro p l' j hp _
  show Agree ((m.setEntry q i 0).entry p j) _ ∨ _
  by_cases hhere : p=q ∧ j=i
  · obtain ⟨rfl,rfl⟩ := hhere
    have hlevel := hp.level_unique k hq
    refine Or.inr ⟨by omega,Or.inr ⟨hhuge,by rw [hpage]; exact hempty⟩,Or.inl ?_⟩
    show present ((m.setEntry p j 0).entry p j)=false
    rw [setEntry_entry_self,present_zero]
  · exact Or.inl (Or.inl (setEntry_entry_of_ne _ _ (not_and_or.mp hhere)))

/-- An entry of the last level matters to its own page. -/
theorem kernelQuery_setLeaf (k : KernelTables m place) {t : Nat} (e : BitVec 64)
    (ha : 0xFFFF800000000000≤a) (hca : addressIsCanonical a=true)
    (hwalk : walkTables m (tableIndices a) (m.kernelRoot/4096)=some [t1,t2,t])
    (haddr : 0xFFFF800000000000≤address) (hne : address/4096≠a/4096) :
    kernelQuery address (m.setEntry t (leafIndex a) e)=kernelQuery address m := by
  have ht : IsTable m place t 1 :=
    Or.inr ⟨_,_,(walkTables_chain k (rootIndex_upper ha hca) hwalk).1⟩
  by_cases hc : addressIsCanonical address=true
  · refine kernelQuery_congr k rfl haddr ?_
    intro q l j hq hvisit
    refine Or.inl (Or.inl (setEntry_entry_of_ne _ _ (not_and_or.mp ?_)))
    rintro ⟨rfl,rfl⟩
    have hroot : IsTable m place (m.kernelRoot/4096) ((tableIndices address).length+1) :=
      Or.inl ⟨rfl,rfl⟩
    obtain ⟨found,hfound,hlast,hleaf⟩ :=
      visits_last k (upperPath_tableIndices haddr hc) hroot ht hvisit
    obtain ⟨u1,u2,u3,rfl⟩ := walkTables_found hfound
    simp only [List.getLast?_cons_cons,List.getLast?_singleton,Option.some.injEq] at hlast
    subst hlast
    exact hne (walkTables_samePage k haddr hc ha hca hfound hwalk hleaf.symm)
  · rw [kernelQuery,kernelQuery,vmmSpaceQuery,vmmSpaceQuery]
    simp [hc]

/-- What a walk that comes down to the last level gathers on its way. -/
theorem kernelQuery_walk (hc : addressIsCanonical address=true)
    (hwalk : walkTables m (tableIndices address) (m.kernelRoot/4096)=some [t1,t2,t3]) :
    kernelQuery address m=queryFrom m address [leafIndex address] t3
      ((vmmWritable ||| vmmUser) &&&
        (m.entry (m.kernelRoot/4096) (rootIndex address) &&& (vmmWritable ||| vmmUser)) &&&
        (m.entry t1 (address/2 ^ 30%512) &&& (vmmWritable ||| vmmUser)) &&&
        (m.entry t2 (address/2 ^ 21%512) &&& (vmmWritable ||| vmmUser)))
      (0 ||| (m.entry (m.kernelRoot/4096) (rootIndex address) &&& vmmNoExecute) |||
        (m.entry t1 (address/2 ^ 30%512) &&& vmmNoExecute) |||
        (m.entry t2 (address/2 ^ 21%512) &&& vmmNoExecute)) := by
  obtain ⟨⟨hp0,hh0,h0⟩,⟨hp1,hh1,h1⟩,⟨hp2,hh2,h2⟩⟩ := walkTables_iff.mp hwalk
  rw [kernelQuery_canonical hc,tableIndices]
  simp only [cons_append,nil_append]
  unfold rootIndex at hp0 hh0 h0 ⊢
  rw [queryFrom_down hp0 hh0 (by simp),h0,queryFrom_down hp1 hh1 (by simp),h1,
    queryFrom_down hp2 hh2 (by simp),h2]

theorem kernelQuery_none_iff (hc : addressIsCanonical address=true)
    (hwalk : walkTables m (tableIndices address) (m.kernelRoot/4096)=some [t1,t2,t3]) :
    kernelQuery address m=none ↔ present (m.entry t3 (leafIndex address))=false := by
  rw [kernelQuery_walk hc hwalk]
  constructor
  · intro h
    by_contra hpres
    rw [queryFrom_page (by simpa using hpres)] at h
    cases h
  · exact queryFrom_absent

theorem gathered_flags {e0 e1 e2 e : BitVec 64} (h0 : hasFlag e0 vmmWritable=true)
    (h1 : hasFlag e1 vmmWritable=true) (h2 : hasFlag e2 vmmWritable=true)
    (h : LeafFlags e (hasFlag stackFlags vmmUser) (hasFlag stackFlags vmmWritable)
      (hasFlag stackFlags vmmCopyOnWrite) (hasFlag stackFlags vmmNoExecute)) :
    vmmPresent ||| ((vmmWritable ||| vmmUser) &&& (e0 &&& (vmmWritable ||| vmmUser)) &&&
        (e1 &&& (vmmWritable ||| vmmUser)) &&& (e2 &&& (vmmWritable ||| vmmUser)) &&&
        (e &&& (vmmWritable ||| vmmUser))) |||
      (0 ||| (e0 &&& vmmNoExecute) ||| (e1 &&& vmmNoExecute) ||| (e2 &&& vmmNoExecute) |||
        (e &&& vmmNoExecute)) ||| (e &&& vmmCopyOnWrite)=vmmPresent ||| stackFlags := by
  have hw : e.getLsbD 1=true := (writable_bit e).symm.trans h.writable
  have hu : e.getLsbD 2=false := (user_bit e).symm.trans h.user
  have hx : e.getLsbD 63=true := (noExecute_bit e).symm.trans h.noExecute
  have hcow : e.getLsbD 9=false := (copyOnWrite_bit e).symm.trans h.cow
  rw [writable_bit] at h0 h1 h2
  apply BitVec.eq_of_getLsbD_eq
  intro k _
  simp only [BitVec.getLsbD_or,BitVec.getLsbD_and,vmmPresent_bit,vmmWritable_bit,vmmUser_bit,
    vmmNoExecute_bit,vmmCopyOnWrite_bit,stackFlags]
  by_cases hk1 : k=1
  · subst hk1
    rw [h0,h1,h2,hw]
    simp
  by_cases hk2 : k=2
  · subst hk2
    rw [hu]
    simp
  by_cases hk63 : k=63
  · subst hk63
    rw [hx]
    simp
  by_cases hk9 : k=9
  · subst hk9
    rw [hcow]
    simp
  simp [hk1,hk2,hk63,hk9]

/-- The tables on the way can be written through, the page below them as its entry says. -/
theorem kernelQuery_stackPage (hc : addressIsCanonical address=true) {page : Nat}
    (hwalk : walkTables m (tableIndices address) (m.kernelRoot/4096)=some [t1,t2,t3])
    (h0 : hasFlag (m.entry (m.kernelRoot/4096) (rootIndex address)) vmmWritable=true)
    (h1 : hasFlag (m.entry t1 (address/2 ^ 30%512)) vmmWritable=true)
    (h2 : hasFlag (m.entry t2 (address/2 ^ 21%512)) vmmWritable=true)
    (hpage : page<2 ^ 40)
    (hleaf : m.entry t3 (leafIndex address) =
      tableEntry page (vmmPresent ||| (stackFlags &&& leafFlags))) :
    kernelQuery address m =
      some (page*4096+address%4096,vmmPresent ||| stackFlags) := by
  obtain ⟨hflags,haddr⟩ := newLeaf_entry stackFlags hpage
  rw [← hleaf] at hflags haddr
  rw [kernelQuery_walk hc hwalk,queryFrom_page hflags.present,haddr]
  rw [gathered_flags h0 h1 h2 hflags]

theorem queryFrom_none_congr {table : Nat} {is : List Nat} {effective noExecute : BitVec 64}
    (h : queryFrom m a is table effective noExecute=none) :
    queryFrom m b is table effective noExecute=none := by
  induction is generalizing table effective noExecute with
  | nil => rfl
  | cons i is ih =>
    rw [queryFrom] at h ⊢
    by_cases hno : (!present (m.entry table i) || (is.length == 3 && huge (m.entry table i)))=true
    · simp only [hno,if_true]
    by_cases hlast : (is.isEmpty || huge (m.entry table i))=true
    · simp [hno,hlast] at h
    · simp only [hno,hlast,if_false,Bool.false_eq_true] at h ⊢
      exact ih h

theorem kernelQuery_samePage (hpage : a/4096=b/4096)
    (h : kernelQuery a m=none) : kernelQuery b m=none := by
  obtain ⟨hindices,hleaf⟩ := samePage_indices hpage
  rw [kernelQuery,vmmSpaceQuery] at h ⊢
  rw [samePage_canonical hpage,hindices,hleaf] at h
  by_cases hc : addressIsCanonical b=true
  · simp only [hc,Bool.not_true,Bool.false_eq_true,if_false] at h ⊢
    exact queryFrom_none_congr h
  · simp [hc]

end Views

end ConeOS.Memory
