import ConeOS.Memory.KernelGrowth

namespace ConeOS.Memory

open ConeOS.Library Machine Function List

/-- The walk to the address reads the table `q`. -/
def Through (m : Machine) (address q : Nat) : Prop :=
  ∃ i, Visits m (tableIndices address ++ [leafIndex address]) (m.kernelRoot/4096) q i

theorem canonical_of_query {m : Machine} {address : Nat} (h : kernelQuery address m≠none) :
    addressIsCanonical address=true := by
  by_contra hc
  rw [kernelQuery,vmmSpaceQuery] at h
  simp [hc] at h

theorem address_of_indices {i0 i1 i2 i3 : Nat} (hi : 256 ≤ i0) (h0 : i0<512) (h1 : i1<512)
    (h2 : i2<512) (h3 : i3<512) :
    ∃ address, 0xFFFF800000000000≤address ∧ addressIsCanonical address=true ∧
      tableIndices address ++ [leafIndex address]=[i0,i1,i2,i3] := by
  refine ⟨0xFFFF*2 ^ 48+i0*2 ^ 39+i1*2 ^ 30+i2*2 ^ 21+i3*2 ^ 12,by omega,?_,?_⟩
  · have h48 : (0xFFFF*2 ^ 48+i0*2 ^ 39+i1*2 ^ 30+i2*2 ^ 21+i3*2 ^ 12)/2 ^ 48 =
        0xFFFF := by omega
    have h47 : (0xFFFF*2 ^ 48+i0*2 ^ 39+i1*2 ^ 30+i2*2 ^ 21+i3*2 ^ 12)/2 ^ 47 %
        2=1 := by omega
    rw [addressIsCanonical,h48,h47]
    rfl
  · simp only [tableIndices,leafIndex,cons_append,nil_append,List.cons.injEq,and_true]
    omega

namespace SoundTables

variable {m : Machine} {place : Nat → Option Place} {c l q i : Nat} {p : Place}

theorem full (s : SoundTables (m.kernelRoot/4096) m place) (hc : place c=some p) :
    ∃ j<512, present (m.entry c j)=true := by
  refine s.filled hc ?_
  rintro rfl
  rw [s.tables.root] at hc
  cases hc

/-- From every table some way goes on to a page. -/
theorem below (s : SoundTables (m.kernelRoot/4096) m place)
    (hc : place c=some ⟨l+1,q,i⟩) :
    ∃ is, is.length=l+1 ∧ (∀ x ∈ is, x<512) ∧ ∀ address effective noExecute,
      queryFrom m address is c effective noExecute≠none := by
  induction l generalizing c q i with
  | zero =>
    obtain ⟨j,hj,hpres⟩ := s.full hc
    refine ⟨[j],rfl,by simpa using hj,?_⟩
    intro address effective noExecute
    rw [queryFrom_page hpres]
    simp
  | succ l ih =>
    obtain ⟨j,hj,hpres⟩ := s.full hc
    have hlevel : l+1+1≤3 := (s.tables.inUse hc).2
    by_cases hhuge : huge (m.entry c j)=true
    · refine ⟨j :: List.replicate (l+1) 0,by simp,?_,?_⟩
      · intro x hx
        rcases mem_cons.mp hx with rfl | hx
        · exact hj
        · rw [eq_of_mem_replicate hx]
          omega
      · intro address effective noExecute
        have hnot : (l+1 == 3)=false := by simp; omega
        rw [queryFrom]
        simp [hpres,hhuge,hnot]
    have hsmall : huge (m.entry c j)=false := by simpa using hhuge
    have hchild := s.tables.child (Or.inr ⟨_,_,hc⟩) (by omega) hj (by omega) hpres hsmall
    obtain ⟨is,hlength,hbound,hquery⟩ := ih hchild
    refine ⟨j :: is,by simp [hlength],?_,?_⟩
    · intro x hx
      rcases mem_cons.mp hx with rfl | hx
      · exact hj
      · exact hbound x hx
    · intro address effective noExecute
      rw [queryFrom_down hpres hsmall (by rintro rfl; simp at hlength)]
      exact hquery _ _ _

theorem step (s : SoundTables (m.kernelRoot/4096) m place) (hc : place c=some ⟨l,q,i⟩)
    {rest : List Nat} (hrest : rest≠[]) :
    (∀ address effective noExecute, ∃ effective' noExecute',
      queryFrom m address (i :: rest) q effective noExecute =
        queryFrom m address rest c effective' noExecute') ∧
      ∀ p j, Visits m rest c p j → Visits m (i :: rest) q p j := by
  obtain ⟨-,-,-,-,⟨hpres,hsmall,hpage⟩,-⟩ := s.parent hc
  refine ⟨?_,?_⟩
  · intro address effective noExecute
    rw [queryFrom_down hpres hsmall hrest,hpage]
    exact ⟨_,_,rfl⟩
  intro p j hvisit
  refine Or.inr ⟨hpres,hsmall,?_⟩
  rw [hpage]
  exact hvisit

/-- To every table there is a way from the root. -/
theorem above (s : SoundTables (m.kernelRoot/4096) m place) {k : Nat} (hl : l+k=3)
    (hc : place c=some ⟨l,q,i⟩) :
    ∃ up, up.length=k+1 ∧ (∀ x ∈ up, x<512) ∧ (∀ x, up.head? = some x → 256≤x) ∧
      ∀ rest, rest≠[] →
        (∀ address effective noExecute, ∃ effective' noExecute',
          queryFrom m address (up ++ rest) (m.kernelRoot/4096) effective noExecute =
            queryFrom m address rest c effective' noExecute') ∧
        ∀ p j, Visits m rest c p j → Visits m (up ++ rest) (m.kernelRoot/4096) p j := by
  induction k generalizing l c q i with
  | zero =>
    obtain ⟨hq,-,hi,hupper,-⟩ := s.parent hc
    have hroot : q=m.kernelRoot/4096 := by
      rcases hq with ⟨hq,-⟩ | ⟨t,j,hq⟩
      · exact hq
      · have hlevel : l+1≤3 := (s.tables.inUse hq).2
        omega
    subst hroot
    exact ⟨[i],rfl,by simpa using hi,by simpa using hupper (by omega),fun _ => s.step hc⟩
  | succ k ih =>
    obtain ⟨hq,-,hi,-⟩ := s.parent hc
    rcases hq with ⟨-,hlevel⟩ | ⟨t,j,hq⟩
    · omega
    obtain ⟨up,hlength,hbound,hhead,hway⟩ := ih (by omega) hq
    refine ⟨up ++ [i],by simp [hlength],?_,?_,?_⟩
    · intro x hx
      rcases mem_append.mp hx with hx | hx
      · exact hbound x hx
      · rw [mem_singleton.mp hx]
        exact hi
    · intro x hx
      refine hhead x ?_
      rwa [List.head?_append_of_ne_nil _ (by rintro rfl; simp at hlength)] at hx
    intro rest hrest
    obtain ⟨hquery,hvisits⟩ := hway (i :: rest) (by simp)
    obtain ⟨hquery',hvisits'⟩ := s.step hc hrest
    rw [append_assoc,singleton_append]
    refine ⟨?_,fun p j' hvisit => hvisits p j' (hvisits' p j' hvisit)⟩
    intro address effective noExecute
    obtain ⟨effective',noExecute',heq⟩ := hquery address effective noExecute
    obtain ⟨effective'',noExecute'',heq'⟩ := hquery' address effective' noExecute'
    exact ⟨effective'',noExecute'',heq.trans heq'⟩

/-- Some page is mapped through every table. -/
theorem table_address (s : SoundTables (m.kernelRoot/4096) m place)
    (hc : place c=some p) :
    ∃ address, 0xFFFF800000000000≤address ∧ kernelQuery address m≠none ∧
      Through m address c := by
  obtain ⟨level,q,i⟩ := p
  have hlevel : level≤3 := (s.tables.inUse hc).2
  have hpos : level≠0 := (s.parent hc).2.1
  obtain ⟨l,rfl⟩ := Nat.exists_eq_succ_of_ne_zero hpos
  obtain ⟨is,hlength,hbound,hquery⟩ := s.below hc
  obtain ⟨up,hlength',hbound',hhead,hway⟩ := s.above (Nat.add_sub_cancel' hlevel) hc
  obtain ⟨j,is',rfl⟩ := exists_cons_of_length_pos (show 0 < is.length by omega)
  obtain ⟨hsame,hvisits⟩ := hway (j :: is') (by simp)
  have hfour : (up ++ j :: is').length=4 := by
    rw [length_append,hlength,hlength']
    omega
  have hlt : ∀ x ∈ up ++ j :: is', x<512 := by
    intro x hx
    rcases mem_append.mp hx with hx | hx
    · exact hbound' x hx
    · exact hbound x hx
  have hfirst : ∀ x, (up ++ j :: is').head? = some x → 256≤x := by
    intro x hx
    refine hhead x ?_
    rwa [List.head?_append_of_ne_nil _ (by rintro rfl; simp at hlength')] at hx
  have hvisit := hvisits c j (Or.inl ⟨rfl,rfl⟩)
  revert hsame hvisit hfour hlt hfirst
  generalize up ++ j :: is'=indices
  intro hsame hfour hlt hfirst hvisit
  obtain ⟨i0,i1,i2,i3,rfl⟩ : ∃ i0 i1 i2 i3, indices=[i0,i1,i2,i3] := by
    match indices, hfour with
    | [i0,i1,i2,i3], _ => exact ⟨i0,i1,i2,i3,rfl⟩
  obtain ⟨address,haddr,hcanonical,hindices⟩ := address_of_indices (hfirst i0 rfl)
    (hlt i0 (by simp)) (hlt i1 (by simp)) (hlt i2 (by simp)) (hlt i3 (by simp))
  refine ⟨address,haddr,?_,j,?_⟩
  · rw [kernelQuery_canonical hcanonical,hindices]
    obtain ⟨effective,noExecute,heq⟩ := hsame address (vmmWritable ||| vmmUser) 0
    rw [heq]
    exact hquery _ _ _
  · rw [hindices]
    exact hvisit

end SoundTables

namespace Grown

variable {m₀ m : Machine} {place₀ place : Nat → Option Place} {data : Set Nat}
  {hole address table c l q i j : Nat} {is : List Nat} {effective noExecute : BitVec 64}

theorem settled (h : Grown m₀ place₀ data (m₀.kernelRoot/4096) m place) :
    SoundTables (m.kernelRoot/4096) m place := by
  rw [h.kernelRoot]
  exact h.sound

theorem child_fresh (h : Grown m₀ place₀ data hole m place) (hc : place c=some ⟨l,q,i⟩)
    (hq : ¬ IsTable m₀ place₀ q (l+1)) : place₀ c=none := by
  by_contra hsome
  obtain ⟨p,hp⟩ := Option.ne_none_iff_exists'.mp hsome
  have hkept := h.kept hp
  rw [hc] at hkept
  cases hkept
  exact hq (h.base.parent hp).1

theorem not_isTable (h : Grown m₀ place₀ data hole m place) {p : Place} (hc : place c=some p)
    (hno : place₀ c=none) (l : Nat) : ¬ IsTable m₀ place₀ c l := by
  rintro (⟨rfl,-⟩ | ⟨t,i,hc'⟩)
  · rw [h.root_none] at hc
    cases hc
  · rw [hno] at hc'
    cases hc'

/-- A walk that has come to a new table meets no huge page. -/
theorem fresh_walk (h : Grown m₀ place₀ data hole m place) (path : UpperPath is)
    (hc : place c=some ⟨is.length+1,q,i⟩) (hno : place₀ c=none)
    (hquery : queryFrom m address (is ++ [j]) c effective noExecute≠none) :
    ∃ found, walkTables m is c=some found ∧
      ∀ t, (c :: found).getLast? = some t → present (m.entry t j)=true := by
  induction is generalizing c q i effective noExecute with
  | nil =>
    refine ⟨[],rfl,?_⟩
    rintro t ⟨⟩
    by_contra hpres
    exact hquery (queryFrom_absent (by simpa using hpres))
  | cons i₀ is ih =>
    rw [length_cons] at hc
    have htable : IsTable m place c (is.length+1+1) := Or.inr ⟨_,_,hc⟩
    have hpres : present (m.entry c i₀)=true := by
      by_contra hpres
      exact hquery (queryFrom_absent (by simpa using hpres))
    have hsmall : huge (m.entry c i₀)=false := by
      by_contra hbig
      exact h.not_isTable hc hno _ (h.small htable (by omega) hpres (by simpa using hbig)).1
    have hchild := path.child h.sound.tables htable hpres hsmall
    rw [cons_append,queryFrom_down hpres hsmall (by simp)] at hquery
    obtain ⟨found,hfound,hlast⟩ := ih path.tail hchild
      (h.child_fresh hchild (h.not_isTable hc hno _)) hquery
    refine ⟨_,by rw [walkTables_down hpres hsmall,hfound]; rfl,?_⟩
    intro t ht
    rw [List.getLast?_cons_cons] at ht
    exact hlast t ht

/-- Where `m₀` has a page, the walk goes through the tables of `m₀` to it. -/
theorem queryFrom_base (h : Grown m₀ place₀ data hole m place) (path : UpperPath is) (hj : j<512)
    (htable : IsTable m₀ place₀ table (is.length+1))
    (hquery : queryFrom m₀ address (is ++ [j]) table effective noExecute≠none) :
    queryFrom m address (is ++ [j]) table effective noExecute =
        queryFrom m₀ address (is ++ [j]) table effective noExecute ∧
      ∀ q i, (Visits m (is ++ [j]) table q i → ∃ l, IsTable m₀ place₀ q l) ∧
        (Visits m₀ (is ++ [j]) table q i → Visits m (is ++ [j]) table q i) := by
  induction is generalizing table effective noExecute with
  | nil =>
    have hpres : present (m₀.entry table j)=true := by
      by_contra hpres
      exact hquery (queryFrom_absent (by simpa using hpres))
    have hsame : m.entry table j=m₀.entry table j := h.entries htable hj (by simp) hpres
    refine ⟨by simp only [nil_append,queryFrom,hsame],?_⟩
    intro q i
    refine ⟨?_,?_⟩
    · rintro (⟨rfl,rfl⟩ | ⟨-,-,hvisit⟩)
      · exact ⟨_,htable⟩
      · exact hvisit.elim
    · rintro (⟨rfl,rfl⟩ | ⟨-,-,hvisit⟩)
      · exact Or.inl ⟨rfl,rfl⟩
      · exact hvisit.elim
  | cons i is ih =>
    rw [length_cons] at htable
    have hpres : present (m₀.entry table i)=true := by
      by_contra hpres
      exact hquery (queryFrom_absent (by simpa using hpres))
    have hsame : m.entry table i=m₀.entry table i :=
      h.entries htable path.head_lt (fun h4 => path.head_upper (by omega)) hpres
    rw [cons_append] at hquery ⊢
    by_cases hhuge : huge (m₀.entry table i)=true
    · refine ⟨queryFrom_huge hsame hhuge,?_⟩
      intro q i'
      refine ⟨?_,?_⟩
      · rintro (⟨rfl,rfl⟩ | ⟨-,hsmall,-⟩)
        · exact ⟨_,htable⟩
        · rw [hsame,hhuge] at hsmall
          cases hsmall
      rintro (⟨rfl,rfl⟩ | ⟨-,hsmall,-⟩)
      · exact Or.inl ⟨rfl,rfl⟩
      · rw [hhuge] at hsmall
        cases hsmall
    have hsmall : huge (m₀.entry table i)=false := by simpa using hhuge
    have hchild := path.child h.base.tables htable hpres hsmall
    rw [queryFrom_down hpres hsmall (by simp)] at hquery ⊢
    rw [queryFrom_down (by rw [hsame]; exact hpres) (by rw [hsame]; exact hsmall) (by simp),hsame]
    obtain ⟨heq,hvisits⟩ := ih path.tail (Or.inr ⟨_,_,hchild⟩) hquery
    refine ⟨heq,?_⟩
    intro q i'
    refine ⟨?_,?_⟩
    · rintro (⟨rfl,rfl⟩ | ⟨-,-,hvisit⟩)
      · exact ⟨_,htable⟩
      · rw [hsame] at hvisit
        exact (hvisits q i').1 hvisit
    rintro (⟨rfl,rfl⟩ | ⟨-,-,hvisit⟩)
    · exact Or.inl ⟨rfl,rfl⟩
    · right
      rw [hsame]
      exact ⟨hpres,hsmall,(hvisits q i').2 hvisit⟩

/-- Where it has none, only small pages can be. -/
theorem queryFrom_fresh (h : Grown m₀ place₀ data hole m place) (path : UpperPath is)
    (htable : IsTable m₀ place₀ table (is.length+1))
    (hbase : queryFrom m₀ address (is ++ [j]) table effective noExecute=none)
    (hquery : queryFrom m address (is ++ [j]) table effective noExecute≠none) :
    ∃ found, walkTables m is table=some found ∧
      ∀ t, (table :: found).getLast? = some t → present (m.entry t j)=true := by
  induction is generalizing table effective noExecute with
  | nil =>
    refine ⟨[],rfl,?_⟩
    rintro t ⟨⟩
    by_contra hpres
    exact hquery (queryFrom_absent (by simpa using hpres))
  | cons i is ih =>
    rw [length_cons] at htable
    rw [cons_append] at hbase hquery
    have hpres : present (m.entry table i)=true := by
      by_contra hpres
      exact hquery (queryFrom_absent (by simpa using hpres))
    have hwalk {found : List Nat} (hsmall : huge (m.entry table i)=false)
        (hfound : walkTables m is (addressPage (m.entry table i))=some found)
        (hlast : ∀ t, (addressPage (m.entry table i) :: found).getLast? = some t →
          present (m.entry t j)=true) :
        ∃ found, walkTables m (i :: is) table=some found ∧
          ∀ t, (table :: found).getLast? = some t → present (m.entry t j)=true := by
      refine ⟨_,by rw [walkTables_down hpres hsmall,hfound]; rfl,?_⟩
      intro t ht
      rw [List.getLast?_cons_cons] at ht
      exact hlast t ht
    by_cases hold : present (m₀.entry table i)=true
    · have hsame : m.entry table i=m₀.entry table i :=
        h.entries htable path.head_lt (fun h4 => path.head_upper (by omega)) hold
      by_cases hhuge : huge (m₀.entry table i)=true
      · exact absurd ((queryFrom_huge hsame hhuge).trans hbase) hquery
      have hsmall : huge (m₀.entry table i)=false := by simpa using hhuge
      have hchild := path.child h.base.tables htable hold hsmall
      rw [queryFrom_down hold hsmall (by simp)] at hbase
      rw [queryFrom_down hpres (by rw [hsame]; exact hsmall) (by simp),hsame] at hquery
      obtain ⟨found,hfound,hlast⟩ := ih path.tail (Or.inr ⟨_,_,hchild⟩) hbase hquery
      rw [← hsame] at hfound hlast
      exact hwalk (by rw [hsame]; exact hsmall) hfound hlast
    have hsmall : huge (m.entry table i)=false := by
      by_contra hbig
      exact hold (h.small (h.isTable htable) (by omega) hpres (by simpa using hbig)).2
    have hchild := path.child h.sound.tables (h.isTable htable) hpres hsmall
    have hno : place₀ (addressPage (m.entry table i))=none := by
      by_contra hsome
      obtain ⟨p,hp⟩ := Option.ne_none_iff_exists'.mp hsome
      have hkept := h.kept hp
      rw [hchild] at hkept
      cases hkept
      exact hold (h.base.parent hp).2.2.2.2.1.1
    rw [queryFrom_down hpres hsmall (by simp)] at hquery
    obtain ⟨found,hfound,hlast⟩ := h.fresh_walk path.tail hchild hno hquery
    exact hwalk hsmall hfound hlast

theorem kernelQuery_base (h : Grown m₀ place₀ data hole m place)
    (haddr : 0xFFFF800000000000≤address) (hquery : kernelQuery address m₀≠none) :
    kernelQuery address m=kernelQuery address m₀ ∧
      ∀ q, (Through m address q → ∃ l, IsTable m₀ place₀ q l) ∧
        (Through m₀ address q → Through m address q) := by
  have hc := canonical_of_query hquery
  rw [kernelQuery_canonical hc] at hquery ⊢
  rw [kernelQuery_canonical hc,h.kernelRoot]
  obtain ⟨heq,hvisits⟩ := h.queryFrom_base (upperPath_tableIndices haddr hc)
    (leafIndex_lt address) (Or.inl ⟨rfl,rfl⟩) hquery
  refine ⟨heq,?_⟩
  intro q
  refine ⟨?_,?_⟩
  · intro ⟨i,hq⟩
    rw [h.kernelRoot] at hq
    exact (hvisits q i).1 hq
  intro ⟨i,hq⟩
  refine ⟨i,?_⟩
  rw [h.kernelRoot]
  exact (hvisits q i).2 hq

theorem walk_of_query (h : Grown m₀ place₀ data hole m place)
    (haddr : 0xFFFF800000000000≤address) (hc : addressIsCanonical address=true)
    (hbase : kernelQuery address m₀=none) (hquery : kernelQuery address m≠none) :
    ∃ t1 t2 t3, walkTables m (tableIndices address) (m.kernelRoot/4096)=some [t1,t2,t3] ∧
      present (m.entry t3 (leafIndex address))=true := by
  rw [kernelQuery_canonical hc] at hbase hquery
  rw [h.kernelRoot] at hquery ⊢
  obtain ⟨found,hfound,hlast⟩ := h.queryFrom_fresh (upperPath_tableIndices haddr hc)
    (Or.inl ⟨rfl,rfl⟩) hbase hquery
  obtain ⟨t1,t2,t3,rfl⟩ := walkTables_found hfound
  exact ⟨t1,t2,t3,hfound,hlast t3 rfl⟩

/-- Nor is its entry there in `m₀`. -/
theorem base_leaf (h : Grown m₀ place₀ data hole m place) (haddr : 0xFFFF800000000000≤address)
    (hc : addressIsCanonical address=true) (hbase : kernelQuery address m₀=none)
    {t1 t2 t3 : Nat}
    (hwalk : walkTables m (tableIndices address) (m.kernelRoot/4096)=some [t1,t2,t3])
    (ht : IsTable m₀ place₀ t3 1) : present (m₀.entry t3 (leafIndex address))=false := by
  obtain ⟨h3,-,-,h2,-,-,h1,-⟩ :=
    walkTables_chain h.sound.tables (rootIndex_upper haddr hc) hwalk
  have hup {c q i l : Nat} (hc : place c=some ⟨l,q,i⟩) (hl : l≠4)
      (ht : IsTable m₀ place₀ c l) : IsTable m₀ place₀ q (l+1) ∧ Leads m₀ q i c := by
    rcases ht with ⟨-,hl'⟩ | ⟨q',i',ht⟩
    · exact absurd hl' hl
    have hkept := h.kept ht
    rw [hc] at hkept
    cases hkept
    obtain ⟨hq,-,-,-,hleads,-⟩ := h.base.parent ht
    exact ⟨hq,hleads⟩
  obtain ⟨ht2,hl3⟩ := hup h3 (by omega) ht
  obtain ⟨ht1,hl2⟩ := hup h2 (by omega) ht2
  obtain ⟨-,hl1⟩ := hup h1 (by omega) ht1
  rw [h.kernelRoot] at hl1
  exact (kernelQuery_none_iff hc (walkTables_iff.mpr ⟨hl1,hl2,hl3⟩)).mp hbase

theorem place_eq (h : Grown m₀ place₀ data (m₀.kernelRoot/4096) m place)
    (hview : ∀ address, 0xFFFF800000000000≤address →
      kernelQuery address m=kernelQuery address m₀) : place=place₀ := by
  funext c
  by_cases hold : place₀ c=none
  · rw [hold]
    by_contra hsome
    obtain ⟨p,hc⟩ := Option.ne_none_iff_exists'.mp hsome
    obtain ⟨address,haddr,hquery,hthrough⟩ := h.settled.table_address hc
    rw [hview address haddr] at hquery
    obtain ⟨l,htable⟩ := ((h.kernelQuery_base haddr hquery).2 c).1 hthrough
    exact h.not_isTable hc hold l htable
  · obtain ⟨p,hp⟩ := Option.ne_none_iff_exists'.mp hold
    rw [hp]
    exact h.kept hp

end Grown

/-- Tables and entries have gone, and none has come. -/
structure Shrunk (m : Machine) (place : Nat → Option Place) (m' : Machine)
    (place' : Nat → Option Place) : Prop where
  kernelRoot : m'.kernelRoot=m.kernelRoot
  placed : ∀ {c p}, place' c=some p → place c=some p
  entries : ∀ {q l}, IsTable m' place' q l → ∀ j,
    m'.entry q j=m.entry q j ∨ present (m'.entry q j)=false

/-- The chain leads from the table `t` to the root. -/
def Linked (root : Nat) : Nat → List (Nat × Nat × Nat) → Prop
  | t, [] => t=root
  | t, (t',q,_) :: rest => t=t' ∧ Linked root q rest

section Unmapping

variable {m₀ m m' m'' : Machine} {place₀ place place' place'' : Nat → Option Place}
  {data : Set Nat} {t l address : Nat} {q i c table j t1 t2 t3 : Nat} {is : List Nat}

theorem Shrunk.refl (m : Machine) (place : Nat → Option Place) : Shrunk m place m place :=
  ⟨rfl,id,fun _ _ => Or.inl rfl⟩

theorem Shrunk.isTable (h : Shrunk m place m' place') (hq : IsTable m' place' q l) :
    IsTable m place q l := by
  rcases hq with ⟨rfl,rfl⟩ | ⟨t,i,hq⟩
  · exact Or.inl ⟨by rw [h.kernelRoot],rfl⟩
  · exact Or.inr ⟨t,i,h.placed hq⟩

theorem Shrunk.trans (h : Shrunk m place m' place') (h' : Shrunk m' place' m'' place'') :
    Shrunk m place m'' place'' := by
  refine ⟨h'.kernelRoot.trans h.kernelRoot,fun hc => h.placed (h'.placed hc),?_⟩
  intro q l hq j
  rcases h'.entries hq j with heq | hno
  · rw [heq]
    exact h.entries (h'.isTable hq) j
  · exact Or.inr hno

theorem Shrunk.leads (h : Shrunk m place m' place') (hq : IsTable m' place' q l)
    (hleads : Leads m' q i c) : Leads m q i c := by
  rcases h.entries hq i with heq | hno
  · rw [Leads,← heq]
    exact hleads
  · have hpres := hleads.1
    rw [hno] at hpres
    cases hpres

theorem Shrunk.setEntry (q i : Nat) : Shrunk m place (m.setEntry q i 0) place := by
  refine ⟨rfl,id,?_⟩
  intro p l _ j
  by_cases hhere : p=q ∧ j=i
  · obtain ⟨rfl,rfl⟩ := hhere
    right
    rw [setEntry_entry_self,present_zero]
  · exact Or.inl (setEntry_entry_of_ne _ _ (not_and_or.mp hhere))

theorem Shrunk.unlink (q i c : Nat) :
    Shrunk m place ((m.setEntry q i 0).freePage c) (update place c none) := by
  have hplaced {d : Nat} {p : Place} (hd : update place c none d=some p) :
      place d=some p := by
    by_cases hdc : d=c
    · subst hdc
      rw [update_self] at hd
      cases hd
    · rwa [update_of_ne hdc] at hd
  refine ⟨rfl,hplaced,?_⟩
  intro p l hp j
  have hp' : IsTable (m.setEntry q i 0) place p l := by
    rcases hp with hp | ⟨t,i',hp⟩
    · exact Or.inl hp
    · exact Or.inr ⟨t,i',hplaced hp⟩
  exact (Shrunk.setEntry q i).entries hp' j

/-- A walk through what is left went the same way before. -/
theorem Shrunk.visits (h : Shrunk m place m' place') (k : KernelTables m' place')
    (path : UpperPath is)
    (htable : IsTable m' place' table (is.length+1)) (hvisit : Visits m' (is ++ [j]) table q i) :
    Visits m (is ++ [j]) table q i ∧ ∃ l, IsTable m' place' q l := by
  induction is generalizing table with
  | nil =>
    rcases hvisit with ⟨rfl,rfl⟩ | ⟨-,-,hvisit⟩
    · exact ⟨Or.inl ⟨rfl,rfl⟩,_,htable⟩
    · exact hvisit.elim
  | cons i₀ is ih =>
    rcases hvisit with ⟨rfl,rfl⟩ | ⟨hpres,hsmall,hvisit⟩
    · exact ⟨Or.inl ⟨rfl,rfl⟩,_,htable⟩
    obtain ⟨hvisit,hq⟩ :=
      ih path.tail (Or.inr ⟨_,_,path.child k htable hpres hsmall⟩) hvisit
    obtain ⟨hpres',hsmall',hpage⟩ := h.leads htable ⟨hpres,hsmall,rfl⟩
    refine ⟨Or.inr ⟨hpres',hsmall',?_⟩,hq⟩
    rw [hpage]
    exact hvisit

/-- Where a page is left, the walk to it goes through the tables it went through. -/
theorem Shrunk.visits_kept (h : Shrunk m place m' place') (k : KernelTables m' place')
    (path : UpperPath is)
    (htable : IsTable m' place' table (is.length+1)) {effective noExecute : BitVec 64}
    (hquery : queryFrom m' address (is ++ [j]) table effective noExecute≠none)
    (hvisit : Visits m (is ++ [j]) table q i) : ∃ l, IsTable m' place' q l := by
  induction is generalizing table effective noExecute with
  | nil =>
    rcases hvisit with ⟨rfl,rfl⟩ | ⟨-,-,hvisit⟩
    · exact ⟨_,htable⟩
    · exact hvisit.elim
  | cons i₀ is ih =>
    rcases hvisit with ⟨rfl,rfl⟩ | ⟨hpres,hsmall,hvisit⟩
    · exact ⟨_,htable⟩
    rcases h.entries htable i₀ with hsame | hno
    · rw [← hsame] at hpres hsmall hvisit
      rw [cons_append,queryFrom_down hpres hsmall (by simp)] at hquery
      exact ih path.tail (Or.inr ⟨_,_,path.child k htable hpres hsmall⟩) hquery hvisit
    · exact absurd (queryFrom_absent hno) hquery

theorem Shrunk.through (h : Shrunk m place m' place') (k : KernelTables m' place')
    (haddr : 0xFFFF800000000000≤address) (hc : addressIsCanonical address=true)
    (hthrough : Through m' address q) : Through m address q := by
  obtain ⟨i,hvisit⟩ := hthrough
  refine ⟨i,?_⟩
  rw [← h.kernelRoot]
  exact (h.visits k (upperPath_tableIndices haddr hc) (Or.inl ⟨rfl,rfl⟩) hvisit).1

theorem Shrunk.through_kept (h : Shrunk m place m' place') (k : KernelTables m' place')
    (haddr : 0xFFFF800000000000≤address) (hquery : kernelQuery address m'≠none)
    (hthrough : Through m address q) : ∃ l, IsTable m' place' q l := by
  have hc := canonical_of_query hquery
  obtain ⟨i,hvisit⟩ := hthrough
  rw [← h.kernelRoot] at hvisit
  rw [kernelQuery_canonical hc] at hquery
  exact h.visits_kept k (upperPath_tableIndices haddr hc) (Or.inl ⟨rfl,rfl⟩) hquery hvisit

theorem through_of_walk
    (h : walkTables m (tableIndices address) (m.kernelRoot/4096)=some [t1,t2,t3])
    (hc : c ∈ [t1,t2,t3]) : Through m address c := by
  obtain ⟨⟨hp0,hs0,rfl⟩,⟨hp1,hs1,rfl⟩,⟨hp2,hs2,rfl⟩⟩ := walkTables_iff.mp h
  simp only [mem_cons,not_mem_nil,or_false] at hc
  rcases hc with rfl | rfl | rfl
  · exact ⟨_,Or.inr ⟨hp0,hs0,Or.inl ⟨rfl,rfl⟩⟩⟩
  · exact ⟨_,Or.inr ⟨hp0,hs0,Or.inr ⟨hp1,hs1,Or.inl ⟨rfl,rfl⟩⟩⟩⟩
  · exact ⟨_,Or.inr ⟨hp0,hs0,Or.inr ⟨hp1,hs1,Or.inr ⟨hp2,hs2,Or.inl ⟨rfl,rfl⟩⟩⟩⟩⟩

theorem tableIsEmpty_eq_true :
    tableIsEmpty m table=true ↔ ∀ j<512, present (m.entry table j)=false := by
  simp [tableIsEmpty]

/-- Pruning takes away tables of the chain until one is not empty. -/
theorem pruneTables_grown {chain : List (Nat × Nat × Nat)}
    (h : Grown m₀ place₀ data t m place) (hchain : PruneChain m place l chain)
    (hlinked : Linked (m₀.kernelRoot/4096) t chain) :
    ∃ place', Grown m₀ place₀ data (m₀.kernelRoot/4096) (pruneTables chain m) place' ∧
      Shrunk m place (pruneTables chain m) place' ∧
      (∀ c, place c≠none → place' c=none → c ∈ chain.map Prod.fst) ∧
      ∀ address, 0xFFFF800000000000≤address →
        kernelQuery address (pruneTables chain m)=kernelQuery address m := by
  induction chain generalizing t m place l with
  | nil =>
    cases hlinked
    exact ⟨place,h,Shrunk.refl m place,fun c hc hno => absurd hno hc,fun _ _ => rfl⟩
  | cons x rest ih =>
    obtain ⟨t',q,i⟩ := x
    obtain ⟨rfl,hlinked⟩ := hlinked
    obtain ⟨hplace,hq,hpage,hrest⟩ := hchain
    rw [pruneTables_cons]
    by_cases hempty : tableIsEmpty m t=true
    · rw [hempty,Bool.not_true,if_neg Bool.false_ne_true,hpage]
      rw [tableIsEmpty_eq_true] at hempty
      have hno : place₀ t=none := by
        by_contra hsome
        obtain ⟨p,hp⟩ := Option.ne_none_iff_exists'.mp hsome
        obtain ⟨j,hj,hpres⟩ := (Grown.refl h.base).filled hp
        have hlevel := (h.base.tables.inUse hp).2
        have hfull := h.entry_present (Or.inr ⟨_,_,hp⟩) hj (by omega) hpres
        rw [hempty j hj] at hfull
        cases hfull
      have hleads := (h.sound.parent hplace).2.2.2.2.1
      have hl := (h.sound.parent hplace).2.1
      obtain ⟨place',hgrown,hshrunk,hgone,hview⟩ := ih (h.unlink hplace hno hempty)
        (PruneChain.tail h.sound.tables ⟨hplace,hq,hpage,hrest⟩) hlinked
      refine ⟨place',hgrown,(Shrunk.unlink q i t).trans hshrunk,?_,?_⟩
      · intro c hc hc'
        rw [map_cons,mem_cons]
        by_cases hct : c=t
        · exact Or.inl hct
        right
        refine hgone c ?_ hc'
        rw [update_of_ne hct]
        exact hc
      · intro address haddr
        rw [hview address haddr]
        exact kernelQuery_unlink h.sound.tables hq hl hpage hleads.2.1 hempty haddr
    · have hfull : ∃ j<512, present (m.entry t j)=true := by
        by_contra hnone
        push Not at hnone
        exact hempty (tableIsEmpty_eq_true.mpr (fun j hj => by simpa using hnone j hj))
      have hfalse : tableIsEmpty m t=false := by simpa using hempty
      rw [hfalse,Bool.not_false,if_pos rfl]
      exact ⟨place,h.settle hfull,Shrunk.refl m place,fun c hc hno => absurd hno hc,fun _ _ => rfl⟩

/-- A page is gone, the rest is as it was. -/
structure UnmapsPage (address : Nat) (m m' : Machine) : Prop where
  page : ∀ b, b/4096=address/4096 → kernelQuery b m'=none
  other : ∀ b, 0xFFFF800000000000≤b → b/4096≠address/4096 →
    kernelQuery b m'=kernelQuery b m

theorem UnmapsPage.of_setLeaf (k : KernelTables m place)
    (haddr : 0xFFFF800000000000≤address) (hc : addressIsCanonical address=true)
    (hwalk : walkTables m (tableIndices address) (m.kernelRoot/4096)=some [t1,t2,t3])
    (ht : IsTable m place t3 1)
    (hview : ∀ b, 0xFFFF800000000000≤b →
      kernelQuery b m'=kernelQuery b (m.setEntry t3 (leafIndex address) 0)) :
    UnmapsPage address m m' := by
  refine ⟨?_,?_⟩
  · intro b hb
    obtain ⟨hindices,hleaf⟩ := samePage_indices hb
    have hcb : addressIsCanonical b=true := (samePage_canonical hb).trans hc
    have hwalk' := walkTables_setLeaf k ht (leafIndex address) 0 (rootIndex_upper haddr hc) hwalk
    rw [← hindices] at hwalk'
    rw [hview b (by omega)]
    refine (kernelQuery_none_iff hcb hwalk').mpr ?_
    rw [hleaf,setEntry_entry_self,present_zero]
  · intro b hb hne
    rw [hview b hb]
    exact kernelQuery_setLeaf k 0 haddr hc hwalk hb hne

/-- A page that was mapped is unmapped, and with it the tables it leaves empty. -/
theorem vmmUnmapPage_grown (h : Grown m₀ place₀ data (m₀.kernelRoot/4096) m place)
    (haddr : 0xFFFF800000000000≤address) (halign : address%4096=0)
    (hbase : kernelQuery address m₀=none) {page : Nat} {flags : BitVec 64}
    (hquery : kernelQuery address m=some (page*4096,flags)) :
    ∃ m' place', vmmUnmapPage address m=(some (page*4096), m') ∧
      Grown m₀ place₀ data (m₀.kernelRoot/4096) m' place' ∧ Shrunk m place m' place' ∧
      (∀ c, place c≠none → place' c=none → Through m address c) ∧
      UnmapsPage address m m' := by
  have k := h.sound.tables
  have hne : kernelQuery address m≠none := by simp [hquery]
  have hc := canonical_of_query hne
  obtain ⟨t1,t2,t3,hwalk,hpres⟩ := h.walk_of_query haddr hc hbase hne
  have hchain := walkTables_chain k (rootIndex_upper haddr hc) hwalk
  have hleaf : IsTable m place t3 1 := Or.inr ⟨_,_,hchain.1⟩
  have hpage : addressPage (m.entry t3 (leafIndex address))=page := by
    rw [kernelQuery_walk hc hwalk,queryFrom_page hpres,halign] at hquery
    simp only [Option.some.injEq,Prod.mk.injEq] at hquery
    omega
  have hcleared := h.clearLeaf hleaf (h.base_leaf haddr hc hbase hwalk)
  have hlinked : Linked (m₀.kernelRoot/4096) t3 [(t3,t2,address/2 ^ 21%512),
      (t2,t1,address/2 ^ 30%512),(t1,m.kernelRoot/4096,rootIndex address)] :=
    ⟨rfl,rfl,rfl,by rw [h.kernelRoot]; rfl⟩
  obtain ⟨place',hgrown,hshrunk,hgone,hview⟩ := pruneTables_grown hcleared
    (hchain.setLeaf k hleaf (leafIndex address) 0) hlinked
  refine ⟨_,place',?_,hgrown,(Shrunk.setEntry _ _).trans hshrunk,?_,
    UnmapsPage.of_setLeaf k haddr hc hwalk hleaf hview⟩
  · have hvalid : ¬ (!addressIsCanonical address || address%4096 != 0 ||
        (decide (0xFFFF800000000000≤address) && !true))=true := by
      simp [hc,halign]
    rw [vmmUnmapPage,vmmSpaceUnmapPage,if_neg hvalid]
    dsimp only
    rw [hwalk]
    simp only [tableIndices,hpres,Bool.not_true,Bool.false_eq_true,if_false,hpage]
    rfl
  · intro c hplaced hno
    have hmem := hgone c hplaced hno
    refine through_of_walk hwalk ?_
    simp only [map_cons,map_nil,mem_cons,not_mem_nil,or_false] at hmem ⊢
    tauto

end Unmapping

end ConeOS.Memory
