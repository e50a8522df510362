import ConeOS.Memory.Forest

namespace ConeOS.Memory

open ConeOS.Library Machine Function

namespace Forest

variable {m : Machine} {roots : Finset Nat} {label : Nat → Option Label} {q r i r' vpn c : Nat}
  {path : List Nat} {e : BitVec 64}

/-- Writing a leaf entry. -/
theorem setLeaf (f : Forest m roots label)
    (hq : label q=some (r,path)) (hl : path.length=3)
    (he : present e=true → hasFlag e vmmUser=true ∧ managed m.pmm (addressPage e)=true) :
    Forest (m.setEntry q i e) roots label := by
  have hother {p r' : Nat} {path' : List Nat} (hp : label p=some (r',path'))
      (hlen : path'.length<3) (j : Nat) : (m.setEntry q i e).entry p j=m.entry p j := by
    apply setEntry_entry_of_ne
    left
    exact ne_of_length hp hq (by omega)
  refine ⟨f.root,f.owner,f.valid,?_,?_,?_⟩
  · intro c r' j path' hc
    obtain ⟨p,hp,hpresent,hpage⟩ := f.parent hc
    have hlen := (f.valid hc).2.1
    exact ⟨p,hp,by rw [hother hp hlen]; exact hpresent,by rw [hother hp hlen]; exact hpage⟩
  · intro p r' path' j hp hlen hj hpresent
    rw [hother hp hlen] at hpresent ⊢
    exact f.child hp hlen hj hpresent
  intro p r' path' j hp hlen hj hpresent
  rw [setEntry_entry] at hpresent ⊢
  split_ifs at hpresent ⊢ with h
  · exact he hpresent
  · exact f.leaf hp hlen hj hpresent

theorem leafAt_setLeaf (f : Forest m roots label) (hq : label q=some (r,path))
    (hl : path.length=3) (hi : i<512)
    (he : present e=true → hasFlag e vmmUser=true ∧ managed m.pmm (addressPage e)=true)
    (hr : r' ∈ roots) (hv : vpn<userPages) :
    leafAt (m.setEntry q i e) r' vpn =
      if r'=r ∧ vpn=vpnOf path i then (if present e then some e else none)
      else leafAt m r' vpn := by
  have f' := f.setLeaf hq hl he (i := i)
  by_cases hhere : r'=r ∧ vpn=vpnOf path i
  · obtain ⟨rfl,rfl⟩ := hhere
    obtain ⟨hpath,hmod,-⟩ := pathOf_vpnOf (f.valid hq) hl hi
    rw [f'.leafAt_of_label (by rw [hpath]; exact hq) hv,hmod,setEntry_entry_self,
      if_pos (And.intro rfl rfl)]
  rw [if_neg hhere]
  apply f.leafAt_congr f' hr hr hv (fun _ => Iff.rfl)
  intro p hp
  apply setEntry_entry_of_ne
  by_contra hboth
  rw [not_or,not_not,not_not] at hboth
  obtain ⟨rfl,hmod⟩ := hboth
  rw [hp] at hq
  cases hq
  apply hhere
  exact ⟨rfl,by rw [← hmod,vpnOf_pathOf vpn hv]⟩

/-- Hanging an empty table into an unused entry. -/
theorem link (f : Forest m roots label)
    (hq : label q=some (r,path)) (hl : path.length<3) (hi : i<userBound path)
    (hfree : present (m.entry q i)=false) (hc : label c=none)
    (hempty : ∀ j, present (m.entry c j)=false) (hpresent : present e=true) (he : TableEntry e)
    (hpage : addressPage e=c) :
    Forest (m.setEntry q i e) roots (update label c (some (r, i :: path))) := by
  have hqc : q≠c := by
    rintro rfl
    rw [hq] at hc
    cases hc
  have hkeep {p : Nat} (hp : label p≠none) :
      update label c (some (r, i :: path)) p=label p := by
    apply update_of_ne
    rintro rfl
    exact hp hc
  have hold {p : Nat} {l : Label} (hp : label p=some l) :
      update label c (some (r, i :: path)) p=some l := by
    rw [hkeep (by simp [hp]),hp]
  have hcases {p : Nat} {l : Label}
      (hp : update label c (some (r, i :: path)) p=some l) :
      (p=c ∧ l=(r, i :: path)) ∨ (p≠c ∧ label p=some l) := by
    by_cases h : p=c
    · subst h
      rw [update_self] at hp
      exact Or.inl ⟨rfl,(Option.some.inj hp).symm⟩
    · rw [update_of_ne h] at hp
      exact Or.inr ⟨h,hp⟩
  have hcentry (j : Nat) : present ((m.setEntry q i e).entry c j)=false := by
    rw [setEntry_entry_of_ne _ _ (Or.inl (Ne.symm hqc))]
    exact hempty j
  refine ⟨?_,?_,?_,?_,?_,?_⟩
  · intro p s
    by_cases h : p=c
    · subst h
      rw [update_self]
      constructor
      · intro heq
        simp at heq
      · rintro ⟨rfl,hs⟩
        rw [(f.root p p).mpr ⟨rfl,hs⟩] at hc
        cases hc
    · rw [update_of_ne h]
      exact f.root p s
  · intro p s path' hp
    rcases hcases hp with ⟨rfl,hl'⟩ | ⟨-,hp⟩
    · cases hl'
      exact f.owner hq
    · exact f.owner hp
  · intro p s path' hp
    rcases hcases hp with ⟨rfl,hl'⟩ | ⟨-,hp⟩
    · cases hl'
      exact ⟨hi,hl,f.valid hq⟩
    · exact f.valid hp
  · intro p s j path' hp
    rcases hcases hp with ⟨rfl,hl'⟩ | ⟨-,hp⟩
    · cases hl'
      exact ⟨q,hold hq,by simpa using hpresent,by simpa using hpage⟩
    obtain ⟨p',hp',hpres,hpg⟩ := f.parent hp
    have hsame : (m.setEntry q i e).entry p' j=m.entry p' j := by
      apply setEntry_entry_of_ne
      by_contra hboth
      rw [not_or,not_not,not_not] at hboth
      obtain ⟨rfl,rfl⟩ := hboth
      rw [hfree] at hpres
      cases hpres
    exact ⟨p',hold hp',by rw [hsame]; exact hpres,by rw [hsame]; exact hpg⟩
  · intro p s path' j hp hlen hj hpres
    rcases hcases hp with ⟨rfl,hl'⟩ | ⟨-,hp'⟩
    · rw [hcentry] at hpres
      cases hpres
    rw [setEntry_entry] at hpres ⊢
    split_ifs at hpres ⊢ with h
    · obtain ⟨rfl,rfl⟩ := h
      rw [hp'] at hq
      cases hq
      rw [hpage,update_self]
      exact ⟨he,rfl⟩
    · obtain ⟨ht,hchild⟩ := f.child hp' hlen hj hpres
      exact ⟨ht,hold hchild⟩
  · intro p s path' j hp hlen hj hpres
    rcases hcases hp with ⟨rfl,hl'⟩ | ⟨-,hp'⟩
    · rw [hcentry] at hpres
      cases hpres
    · have hne : p≠q := ne_of_length hp' hq (by omega)
      rw [setEntry_entry_of_ne _ _ (Or.inl hne)] at hpres ⊢
      exact f.leaf hp' hlen hj hpres

theorem no_table_below (f : Forest m roots label) {p : Nat}
    (hq : label q=some (r,path)) (hfree : present (m.entry q i)=false) :
    label p≠some (r, i :: path) := by
  intro hp
  obtain ⟨q',hq',hpres,-⟩ := f.parent hp
  rw [f.label_unique hq' hq] at hpres
  rw [hfree] at hpres
  cases hpres

theorem leafAt_link (f : Forest m roots label) (hq : label q=some (r,path))
    (hl : path.length<3)
    (hi : i<userBound path) (hfree : present (m.entry q i)=false) (hc : label c=none)
    (hempty : ∀ j, present (m.entry c j)=false) (hpresent : present e=true) (he : TableEntry e)
    (hpage : addressPage e=c) (hr : r' ∈ roots) (hv : vpn<userPages) :
    leafAt (m.setEntry q i e) r' vpn=leafAt m r' vpn := by
  have f' := f.link hq hl hi hfree hc hempty hpresent he hpage
  by_cases hnew : (r',pathOf vpn)=(r, i :: path)
  · obtain ⟨rfl,hpath⟩ := Prod.mk.inj hnew
    have hbefore : leafAt m r' vpn=none := by
      apply f.leafAt_of_no_label hr hv
      rw [hpath]
      exact fun p => f.no_table_below hq hfree
    have hclabel : update label c (some (r', i :: path)) c=some (r',pathOf vpn) := by
      rw [update_self,hpath]
    have hcq : c≠q := by
      rintro rfl
      rw [hq] at hc
      cases hc
    rw [hbefore,f'.leafAt_of_label hclabel hv,setEntry_entry_of_ne _ _ (Or.inl hcq),
      if_neg (by simp [hempty])]
  apply f.leafAt_congr f' hr hr hv
  · intro p
    by_cases hp : p=c
    · subst hp
      rw [update_self,hc]
      constructor
      · intro h
        exact absurd (Option.some.inj h).symm hnew
      · intro h
        cases h
    · rw [update_of_ne hp]
  · intro p hp
    apply setEntry_entry_of_ne
    left
    apply ne_of_length hp hq
    simp only [pathOf,List.length_cons,List.length_nil]
    omega

/-- Taking an empty table out of its entry. -/
theorem unlink (f : Forest m roots label)
    (hq : label q=some (r,path)) (hc : label c=some (r, i :: path))
    (hempty : ∀ j, j<512 → present (m.entry c j)=false) :
    Forest (m.setEntry q i 0) roots (update label c none) := by
  have hne : c≠q := ne_of_length hc hq (by simp)
  have hlen := (f.valid hc).2.1
  have hcases {p : Nat} {l : Label} (hp : update label c none p=some l) :
      p≠c ∧ label p=some l := by
    by_cases h : p=c
    · subst h
      rw [update_self] at hp
      cases hp
    · rw [update_of_ne h] at hp
      exact ⟨h,hp⟩
  -- no table hangs below the one that goes
  have hbelow {p : Nat} {j : Nat} (hp : label p=some (r, j :: i :: path)) : False := by
    obtain ⟨c',hc',hpres,-⟩ := f.parent hp
    rw [f.label_unique hc' hc] at hpres
    have hj : j<512 := by
      have := (f.valid hp).1
      simpa [userBound] using this
    rw [hempty j hj] at hpres
    cases hpres
  refine ⟨?_,?_,?_,?_,?_,?_⟩
  · intro p s
    by_cases h : p=c
    · subst h
      rw [update_self]
      constructor
      · intro heq
        cases heq
      · rintro ⟨rfl,hs⟩
        rw [(f.root p p).mpr ⟨rfl,hs⟩] at hc
        cases hc
    · rw [update_of_ne h]
      exact f.root p s
  · intro p s path' hp
    exact f.owner (hcases hp).2
  · intro p s path' hp
    exact f.valid (hcases hp).2
  · intro p s j path' hp
    obtain ⟨hpc,hp'⟩ := hcases hp
    obtain ⟨q',hq',hpres,hpage⟩ := f.parent hp'
    have hq'c : q'≠c := by
      rintro rfl
      rw [hc] at hq'
      cases hq'
      exact hbelow hp'
    have hsame : (m.setEntry q i 0).entry q' j=m.entry q' j := by
      apply setEntry_entry_of_ne
      by_contra hboth
      rw [not_or,not_not,not_not] at hboth
      obtain ⟨rfl,rfl⟩ := hboth
      rw [hq] at hq'
      cases hq'
      exact hpc (f.label_unique hp' hc)
    exact ⟨q',by rw [update_of_ne hq'c]; exact hq',by rw [hsame]; exact hpres,
      by rw [hsame]; exact hpage⟩
  · intro p s path' j hp hl hj hpres
    obtain ⟨hpc,hp'⟩ := hcases hp
    rw [setEntry_entry] at hpres ⊢
    split_ifs at hpres ⊢ with h
    · rw [present_zero] at hpres
      cases hpres
    obtain ⟨ht,hchild⟩ := f.child hp' hl hj hpres
    refine ⟨ht,?_⟩
    rw [update_of_ne]
    · exact hchild
    intro heq
    rw [heq,hc] at hchild
    cases hchild
    exact h ⟨f.label_unique hp' hq,rfl⟩
  · intro p s path' j hp hl hj hpres
    obtain ⟨hpc,hp'⟩ := hcases hp
    have hpq : p≠q := ne_of_length hp' hq (by omega)
    rw [setEntry_entry_of_ne _ _ (Or.inl hpq)] at hpres ⊢
    exact f.leaf hp' hl hj hpres

theorem leafAt_unlink (f : Forest m roots label)
    (hq : label q=some (r,path)) (hc : label c=some (r, i :: path))
    (hempty : ∀ j, j<512 → present (m.entry c j)=false) (hr : r' ∈ roots)
    (hv : vpn<userPages) : leafAt (m.setEntry q i 0) r' vpn=leafAt m r' vpn := by
  have f' := f.unlink hq hc hempty
  have hlen := (f.valid hc).2.1
  by_cases hgone : (r',pathOf vpn)=(r, i :: path)
  · obtain ⟨rfl,hpath⟩ := Prod.mk.inj hgone
    have hbefore : leafAt m r' vpn=none := by
      rw [f.leafAt_of_label (by rw [hpath]; exact hc) hv,
        if_neg (by simp [hempty (vpn%512) (Nat.mod_lt _ (by omega))])]
    rw [hbefore]
    apply f'.leafAt_of_no_label hr hv
    intro p hp
    by_cases h : p=c
    · subst h
      rw [update_self] at hp
      cases hp
    · rw [update_of_ne h,hpath] at hp
      exact h (f.label_unique hp hc)
  apply f.leafAt_congr f' hr hr hv
  · intro p
    by_cases h : p=c
    · subst h
      rw [update_self,hc]
      constructor
      · intro heq
        cases heq
      · intro heq
        exact absurd (Option.some.inj heq).symm hgone
    · rw [update_of_ne h]
  · intro p hp
    apply setEntry_entry_of_ne
    left
    apply ne_of_length hp hq
    simp only [pathOf,List.length_cons,List.length_nil]
    omega

/-- A root with an empty lower half is a new space. -/
theorem newRoot (f : Forest m roots label) (hr : r ∉ roots) (hlabel : label r=none)
    (hempty : ∀ i, i<256 → present (m.entry r i)=false) :
    Forest m (insert r roots) (update label r (some (r, []))) := by
  have hcases {p : Nat} {l : Label} (hp : update label r (some (r, [])) p=some l) :
      (p=r ∧ l=(r, [])) ∨ (p≠r ∧ label p=some l) := by
    by_cases h : p=r
    · subst h
      rw [update_self] at hp
      exact Or.inl ⟨rfl,(Option.some.inj hp).symm⟩
    · rw [update_of_ne h] at hp
      exact Or.inr ⟨h,hp⟩
  have hold {p : Nat} {l : Label} (hp : label p=some l) :
      update label r (some (r, [])) p=some l := by
    rw [update_of_ne]
    · exact hp
    · rintro rfl
      rw [hlabel] at hp
      cases hp
  refine ⟨?_,?_,?_,?_,?_,?_⟩
  · intro p s
    by_cases h : p=r
    · subst h
      rw [update_self]
      constructor
      · intro heq
        cases heq
        exact ⟨rfl,Finset.mem_insert_self _ _⟩
      · rintro ⟨rfl,-⟩
        rfl
    · rw [update_of_ne h,f.root]
      constructor
      · rintro ⟨rfl,hs⟩
        exact ⟨rfl,Finset.mem_insert_of_mem hs⟩
      · rintro ⟨rfl,hs⟩
        exact ⟨rfl,(Finset.mem_insert.mp hs).resolve_left h⟩
  · intro p s path hp
    rcases hcases hp with ⟨rfl,hl⟩ | ⟨-,hp'⟩
    · cases hl
      exact Finset.mem_insert_self _ _
    · exact Finset.mem_insert_of_mem (f.owner hp')
  · intro p s path hp
    rcases hcases hp with ⟨rfl,hl⟩ | ⟨-,hp'⟩
    · cases hl
      trivial
    · exact f.valid hp'
  · intro p s i path hp
    rcases hcases hp with ⟨rfl,hl⟩ | ⟨-,hp'⟩
    · cases hl
    · obtain ⟨q,hq,hrest⟩ := f.parent hp'
      exact ⟨q,hold hq,hrest⟩
  · intro p s path i hp hl hi hpres
    rcases hcases hp with ⟨rfl,hl'⟩ | ⟨-,hp'⟩
    · cases hl'
      rw [hempty i hi] at hpres
      cases hpres
    · obtain ⟨ht,hchild⟩ := f.child hp' hl hi hpres
      exact ⟨ht,hold hchild⟩
  · intro p s path i hp hl hi hpres
    rcases hcases hp with ⟨rfl,hl'⟩ | ⟨-,hp'⟩
    · cases hl'
      cases hl
    · exact f.leaf hp' hl hi hpres

theorem leafAt_newRoot (f : Forest m roots label) (hr : r ∉ roots)
    (hlabel : label r=none) (hempty : ∀ i, i<256 → present (m.entry r i)=false)
    (hv : vpn<userPages) : leafAt m r vpn=none := by
  have f' := f.newRoot hr hlabel hempty
  apply f'.leafAt_of_no_label (Finset.mem_insert_self _ _) hv
  intro p hp
  by_cases h : p=r
  · subst h
    rw [update_self] at hp
    cases hp
  · rw [update_of_ne h] at hp
    exact hr (f.owner hp)

/-- Forgetting a space leaves its tables without labels. -/
def withoutRoot (label : Nat → Option Label) (r : Nat) (q : Nat) : Option Label :=
  match label q with
  | none => none
  | some l => if l.1=r then none else some l

theorem withoutRoot_some {l : Label} :
    withoutRoot label r q=some l ↔ label q=some l ∧ l.1≠r := by
  unfold withoutRoot
  cases hq : label q with
  | none => simp
  | some l' =>
    dsimp only
    split_ifs with h
    · constructor
      · intro hc
        cases hc
      · rintro ⟨hl,hne⟩
        cases hl
        exact absurd h hne
    constructor
    · intro hl
      cases hl
      exact ⟨rfl,h⟩
    · rintro ⟨hl,-⟩
      exact hl

theorem dropRoot (f : Forest m roots label) (r : Nat) :
    Forest m (roots.erase r) (withoutRoot label r) := by
  refine ⟨?_,?_,?_,?_,?_,?_⟩
  · intro p s
    rw [withoutRoot_some,f.root,Finset.mem_erase]
    tauto
  · intro p s path hp
    obtain ⟨hp,hne⟩ := withoutRoot_some.mp hp
    exact Finset.mem_erase.mpr ⟨hne,f.owner hp⟩
  · intro p s path hp
    exact f.valid (withoutRoot_some.mp hp).1
  · intro p s i path hp
    obtain ⟨hp,hne⟩ := withoutRoot_some.mp hp
    obtain ⟨q,hq,hrest⟩ := f.parent hp
    exact ⟨q,withoutRoot_some.mpr ⟨hq,hne⟩,hrest⟩
  · intro p s path i hp hl hi hpres
    obtain ⟨hp,hne⟩ := withoutRoot_some.mp hp
    obtain ⟨ht,hchild⟩ := f.child hp hl hi hpres
    exact ⟨ht,withoutRoot_some.mpr ⟨hchild,hne⟩⟩
  · intro p s path i hp hl hi hpres
    exact f.leaf (withoutRoot_some.mp hp).1 hl hi hpres

end Forest

end ConeOS.Memory
