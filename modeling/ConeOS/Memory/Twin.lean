import ConeOS.Memory.Account

namespace ConeOS.Memory

open ConeOS.Library Machine Function

variable {m m' m'' : Machine}

/-- What the code does not record: the spaces in use, the place of every table, the
references in hand, and the pages whose contents two runs need not share. -/
structure Ghost where
  roots : Finset Nat
  label : Nat → Option Label
  held : Nat → Nat
  dirty : Nat → Prop

/-- Two machines in step: the first keeps the invariant, and the second differs only in the
contents of free and dirty pages and of those the kernel has for itself. -/
structure Twin (g : Ghost) (m n : Machine) : Prop where
  inv : MemInv m g.roots g.label g.held
  pmm : n.pmm=m.pmm
  kernelRoot : n.kernelRoot=m.kernelRoot
  kernelPages : n.kernelPages=m.kernelPages
  mem : ∀ {q}, m.pmm.bitmap q=true → ¬ g.dirty q → m.kernelPages q=false →
    n.mem q=m.mem q
  mem_label : ∀ {q}, g.label q≠none → n.mem q=m.mem q
  mem_kernelRoot : n.mem (m.kernelRoot/4096)=m.mem (m.kernelRoot/4096)
  /-- A page has 512 words. -/
  tail : ∀ {q i}, 512 ≤ i → n.mem q i=m.mem q i

/-- Everything in use but the tables of the space `r` stays as it is. -/
structure Keeps (r : Nat) (label label' : Nat → Option Label) (m m' : Machine) : Prop where
  page : ∀ {q}, m.pmm.bitmap q=true → (∀ path, label q≠some (r,path)) →
    m'.mem q=m.mem q ∧ label' q=label q ∧ m'.pmm.bitmap q=true
  kernelPages : m'.kernelPages=m.kernelPages
  kernelRoot : m'.kernelRoot=m.kernelRoot
  map : SameMap m.pmm m'.pmm

def SameLeaves (roots : Finset Nat) (m m' : Machine) : Prop :=
  ∀ {r vpn}, r ∈ roots → vpn<userPages → leafAt m' r vpn=leafAt m r vpn

theorem Keeps.refl (r : Nat) (label : Nat → Option Label) (m : Machine) :
    Keeps r label label m m :=
  ⟨fun hb _ => ⟨rfl,rfl,hb⟩,rfl,rfl,SameMap.refl _⟩

theorem Keeps.trans {r : Nat} {l l' l'' : Nat → Option Label}
    (h : Keeps r l l' m m') (h' : Keeps r l' l'' m' m'') : Keeps r l l'' m m'' := by
  refine ⟨?_,h'.kernelPages.trans h.kernelPages,h'.kernelRoot.trans h.kernelRoot,h.map.trans h'.map⟩
  intro q hb hl
  obtain ⟨hmem,hl',hb'⟩ := h.page hb hl
  obtain ⟨hmem',hl'',hb''⟩ := h'.page hb' (by rw [hl']; exact hl)
  exact ⟨hmem'.trans hmem,hl''.trans hl',hb''⟩

theorem Keeps.setEntry {r : Nat} {label : Nat → Option Label} (m : Machine) {q i : Nat}
    {path : List Nat} {e : BitVec 64} (hq : label q=some (r,path)) :
    Keeps r label label m (m.setEntry q i e) := by
  refine ⟨?_,rfl,rfl,SameMap.refl _⟩
  intro p hb hp
  refine ⟨setEntry_mem_of_ne _ _ _ ?_,rfl,hb⟩
  rintro rfl
  exact hp path hq

theorem SameLeaves.refl (roots : Finset Nat) (m : Machine) : SameLeaves roots m m :=
  fun _ _ => rfl

theorem SameLeaves.trans {roots : Finset Nat} (h : SameLeaves roots m m')
    (h' : SameLeaves roots m' m'') : SameLeaves roots m m'' :=
  fun hr hv => (h' hr hv).trans (h hr hv)

/-- The machine once the allocator has handed out `page`. -/
def Machine.take (page : Nat) (m : Machine) : Machine := { m with pmm := takePage page m.pmm }

namespace Twin

variable {g : Ghost} {m n : Machine}

theorem entry_label (t : Twin g m n) {q : Nat} (h : g.label q≠none) (i : Nat) :
    n.entry q i=m.entry q i := by
  rw [entry,entry,t.mem_label h]

theorem forest (t : Twin g m n) : Forest n g.roots g.label :=
  t.inv.forest.congr (fun _ hq => t.mem_label hq) (fun _ => by rw [t.pmm])

theorem leafAt_eq (t : Twin g m n) {r vpn : Nat} (hr : r ∈ g.roots) (hv : vpn<userPages) :
    leafAt n r vpn=leafAt m r vpn :=
  t.inv.forest.leafAt_congr t.forest hr hr hv (fun _ => Iff.rfl)
    (fun _ hq => t.entry_label (by simp [hq]) _)

theorem withDirty (t : Twin g m n) (dirty : Nat → Prop)
    (h : ∀ q, m.pmm.bitmap q=true → m.kernelPages q=false → g.dirty q →
      dirty q ∨ n.mem q=m.mem q) :
    Twin { g with dirty := dirty } m n := by
  refine ⟨t.inv,t.pmm,t.kernelRoot,t.kernelPages,?_,t.mem_label,t.mem_kernelRoot,t.tail⟩
  intro q hb hq hk
  by_cases hd : g.dirty q
  · exact (h q hb hk hd).resolve_left hq
  · exact t.mem hb hd hk

section Pages

variable {p : Nat}

theorem alloc (t : Twin g m n) (reserve : Nat) :
    (m.alloc reserve=(none,m) ∧ n.alloc reserve=(none,n)) ∨
      ∃ p, m.pmm.bitmap p=false ∧ p<2 ^ 40 ∧
        m.alloc reserve=(some p,m.take p) ∧ n.alloc reserve=(some p,n.take p) ∧
        Twin { g with
          held := update g.held p 1
          dirty := fun q => q=p ∨ g.dirty q } (m.take p) (n.take p) := by
  cases h : allocPageWithReserve reserve m.pmm with
  | mk result pmm' =>
    cases result with
    | none =>
      have hsame := alloc_none h
      subst hsame
      left
      simp only [Machine.alloc,t.pmm,h]
      refine ⟨trivial,?_⟩
      rw [← t.pmm]
    | some address =>
      obtain ⟨p,rfl,hfree,rfl⟩ := alloc_some h
      have hdiv : p*4096/4096=p := Nat.mul_div_cancel _ (by omega)
      have hbound := (t.inv.pmm.clear p hfree).2
      have haddr := t.inv.pmm.addresses
      right
      refine ⟨p,hfree,by omega,?_,?_,t.inv.takePage hfree,?_,t.kernelRoot,t.kernelPages,
        ?_,t.mem_label,t.mem_kernelRoot,t.tail⟩
      · simp only [Machine.alloc,h,hdiv,Machine.take]
      · simp only [Machine.alloc,t.pmm,h,hdiv,Machine.take]
      · simp only [Machine.take,t.pmm]
      intro q hb hq hk
      rw [not_or] at hq
      have hb : update m.pmm.bitmap p true q=true := hb
      rw [update_of_ne hq.1] at hb
      exact t.mem hb hq.2 hk

theorem freePage (t : Twin g m n) (hp : 0<g.held p)
    (hk : m.kernelPages p=true → 1<g.held p) :
    Twin { g with held := update g.held p (g.held p-1) } (m.freePage p)
      (n.freePage p) := by
  have hm := t.inv.managed_of_held hp
  obtain ⟨-,hother,-⟩ := pmmFreePage_eq hm (t.inv.bitmap_of_held hm hp)
  refine ⟨t.inv.dropPage hp hk,?_,t.kernelRoot,t.kernelPages,?_,t.mem_label,t.mem_kernelRoot,t.tail⟩
  · simp only [Machine.freePage,t.pmm]
  intro q hb hq hk
  have hb : (dropReference p m.pmm).bitmap q=true := hb
  apply t.mem _ hq hk
  by_cases h : q=p
  · subst h
    exact t.inv.bitmap_of_held hm hp
  · rw [(hother q h).1] at hb
    exact hb

theorem retainPage (t : Twin g m n) (hm : managed m.pmm p=true)
    (hlabel : g.label p=none) :
    (m.retainPage p=(false,m) ∧ n.retainPage p=(false,n)) ∨
      (m.retainPage p=(true, { m with pmm := addReference p m.pmm }) ∧
        n.retainPage p=(true, { n with pmm := addReference p n.pmm }) ∧
        Twin { g with held := update g.held p (g.held p+1) }
          { m with pmm := addReference p m.pmm } { n with pmm := addReference p n.pmm }) := by
  cases h : pmmRetainPage (p*4096) m.pmm with
  | mk ok pmm' =>
    cases ok with
    | false =>
      have hsame := pmmRetainPage_false h
      subst hsame
      left
      simp only [Machine.retainPage,t.pmm,h]
      refine ⟨trivial,?_⟩
      rw [← t.pmm]
    | true =>
      obtain ⟨rfl,hb⟩ := pmmRetainPage_true h
      right
      refine ⟨?_,?_,t.inv.addPage hm hlabel hb,?_,t.kernelRoot,t.kernelPages,t.mem,
        t.mem_label,t.mem_kernelRoot,t.tail⟩
      · simp only [Machine.retainPage,h]
      · simp only [Machine.retainPage,t.pmm,h]
      · simp only [t.pmm]

/-- New contents for a page that is no table: the same on both sides, or made in the same
way from contents that agree. -/
theorem setPage (t : Twin g m n) (hlabel : g.label p=none)
    (hm : managed m.pmm p=true) {b b' : Block} {dirty : Nat → Prop}
    (hb : ¬ dirty p → m.pmm.bitmap p=true → m.kernelPages p=false → b'=b)
    (htail : ∀ i, 512 ≤ i → b' i=b i) (hd : ∀ q, q≠p → g.dirty q → dirty q) :
    Twin { g with dirty := dirty } (m.setPage p b) (n.setPage p b') := by
  have hroot := t.inv.ne_kernelRoot hm
  refine ⟨t.inv.setPage hlabel hroot b,t.pmm,t.kernelRoot,t.kernelPages,?_,?_,?_,?_⟩
  · intro q hbit hq hk
    by_cases h : q=p
    · subst h
      simp only [setPage_mem,if_true]
      exact hb hq hbit hk
    · rw [setPage_mem_of_ne _ _ h,setPage_mem_of_ne _ _ h]
      exact t.mem hbit (fun hdirty => hq (hd q h hdirty)) hk
  · intro q hq
    have h : q≠p := by
      rintro rfl
      exact hq hlabel
    rw [setPage_mem_of_ne _ _ h,setPage_mem_of_ne _ _ h]
    exact t.mem_label hq
  · show (n.setPage p b').mem (m.kernelRoot/4096)=(m.setPage p b).mem (m.kernelRoot/4096)
    rw [setPage_mem_of_ne _ _ hroot,setPage_mem_of_ne _ _ hroot]
    exact t.mem_kernelRoot
  intro q i hi
  by_cases h : q=p
  · simp only [setPage_mem,h,if_true]
    exact htail i hi
  · rw [setPage_mem_of_ne _ _ h,setPage_mem_of_ne _ _ h]
    exact t.tail hi

theorem keeps_take (t : Twin g m n) (r : Nat) (hp : m.pmm.bitmap p=false) :
    Keeps r g.label g.label m (m.take p) := by
  refine ⟨?_,rfl,rfl,(t.inv.pmm.takePage hp).2⟩
  intro q hb hq
  have hqp : q≠p := by
    rintro rfl
    rw [hp] at hb
    cases hb
  refine ⟨rfl,rfl,?_⟩
  show update m.pmm.bitmap p true q=true
  rw [update_of_ne hqp]
  exact hb

/-- A page from the allocator, zeroed before anything else happens. -/
theorem allocCleared (t : Twin g m n) (reserve : Nat) :
    (m.alloc reserve=(none,m) ∧ n.alloc reserve=(none,n)) ∨
      ∃ p, m.pmm.bitmap p=false ∧ p<2 ^ 40 ∧
        m.alloc reserve=(some p,m.take p) ∧ n.alloc reserve=(some p,n.take p) ∧
        Twin { g with held := update g.held p 1 } ((m.take p).clearPage p)
          ((n.take p).clearPage p) ∧
        (∀ r, Keeps r g.label g.label m ((m.take p).clearPage p)) ∧
        SameLeaves g.roots m ((m.take p).clearPage p) := by
  rcases t.alloc reserve with hnone | ⟨p,hbit,hp,hm,hn,t1⟩
  · exact Or.inl hnone
  obtain ⟨hmanaged,hlabel,-⟩ := t.inv.free_page hbit
  have t2 : Twin { g with held := update g.held p 1 } ((m.take p).clearPage p)
      ((n.take p).clearPage p) :=
    t1.setPage hlabel hmanaged (fun _ _ _ => rfl) (fun _ _ => rfl)
      (fun q hne hd => hd.resolve_left hne)
  refine Or.inr ⟨p,hbit,hp,hm,hn,t2,fun r => ⟨?_,rfl,rfl,(t.inv.pmm.takePage hbit).2⟩,?_⟩
  · intro q hb hq
    have hqp : q≠p := by
      rintro rfl
      rw [hbit] at hb
      cases hb
    exact ⟨clearPage_mem_of_ne _ hqp,((t.keeps_take r hbit).page hb hq).2⟩
  · intro r vpn hr hv
    exact (t1.inv.leafAt_setPage hlabel hr hv _).trans (leafAt_mem rfl r vpn)

theorem writeBytes (t : Twin g m n) (hlabel : g.label p=none)
    (hm : managed m.pmm p=true) (offset count : Nat) (f : Nat → UInt8) :
    Twin g (m.writeBytes p offset count f) (n.writeBytes p offset count f) := by
  apply t.setPage hlabel hm _ _ (fun _ _ h => h)
  · intro hclean hbit hk
    rw [t.mem hbit hclean hk]
  · intro i hi
    rw [Library.writeBytes,Library.writeBytes,t.tail hi]

end Pages

section Tables

variable {q r i c : Nat} {path : List Nat} {e : BitVec 64}

/-- A table entry written on both sides. -/
theorem setEntry (t : Twin g m n) (hq : g.label q≠none) {label : Nat → Option Label}
    {held : Nat → Nat} (inv : MemInv (m.setEntry q i e) g.roots label held)
    (hlabel : ∀ p, label p≠none → n.mem p=m.mem p) :
    Twin { g with label := label, held := held } (m.setEntry q i e) (n.setEntry q i e) := by
  have hmem {p : Nat} (h : n.mem p=m.mem p) :
      (n.setEntry q i e).mem p=(m.setEntry q i e).mem p := by
    by_cases hp : p=q
    · subst hp
      simp only [Machine.setEntry,setPage_mem,if_true,t.mem_label hq]
    · rw [setEntry_mem_of_ne _ _ _ hp,setEntry_mem_of_ne _ _ _ hp]
      exact h
  have htail {p j : Nat} (hj : 512≤j) :
      (n.setEntry q i e).mem p j=(m.setEntry q i e).mem p j := by
    by_cases hp : p=q
    · rw [hp]
      exact congrFun (hmem (t.mem_label hq)) j
    · rw [setEntry_mem_of_ne _ _ _ hp,setEntry_mem_of_ne _ _ _ hp]
      exact t.tail hj
  exact ⟨inv,t.pmm,t.kernelRoot,t.kernelPages,fun hb hd hk => hmem (t.mem hb hd hk),
    fun hp => hmem (hlabel _ hp),hmem t.mem_kernelRoot,htail⟩

theorem insertLeaf (t : Twin g m n) (hq : g.label q=some (r,path)) (hl : path.length=3)
    (hi : i<512) (hold : present (m.entry q i)=false) (hp : present e=true)
    (hu : hasFlag e vmmUser=true) (hheld : 0<g.held (addressPage e))
    (hk : m.kernelPages (addressPage e)=false) :
    Twin { g with held := update g.held (addressPage e) (g.held (addressPage e)-1) }
      (m.setEntry q i e) (n.setEntry q i e) :=
  t.setEntry (by simp [hq]) (t.inv.insertLeaf hq hl hi hold hp hu hheld hk)
    (fun _ h => t.mem_label h)

theorem removeLeaf (t : Twin g m n) (hq : g.label q=some (r,path)) (hl : path.length=3)
    (hi : i<512) (hold : present (m.entry q i)=true) :
    Twin { g with
      held := update g.held (addressPage (m.entry q i))
        (g.held (addressPage (m.entry q i))+1) } (m.setEntry q i 0) (n.setEntry q i 0) :=
  t.setEntry (by simp [hq]) (t.inv.removeLeaf hq hl hi hold) (fun _ h => t.mem_label h)

theorem changeLeaf (t : Twin g m n) (hq : g.label q=some (r,path)) (hl : path.length=3)
    (hi : i<512) (hold : present (m.entry q i)=true) (hp : present e=true)
    (hu : hasFlag e vmmUser=true) (hpage : addressPage e=addressPage (m.entry q i)) :
    Twin g (m.setEntry q i e) (n.setEntry q i e) :=
  t.setEntry (by simp [hq]) (t.inv.changeLeaf hq hl hi hold hp hu hpage)
    (fun _ h => t.mem_label h)

theorem link (t : Twin g m n) (hq : g.label q=some (r,path)) (hl : path.length<3)
    (hi : i<userBound path) (hfree : present (m.entry q i)=false) (hheld : g.held c=1)
    (hk : m.kernelPages c=false) (hmapped : mappings m g.roots c=0) (hc : n.mem c=m.mem c)
    (hempty : ∀ j, present (m.entry c j)=false) (hpresent : present e=true)
    (he : TableEntry e) (hpage : addressPage e=c) :
    Twin { g with
      label := update g.label c (some (r, i :: path))
      held := update g.held c 0 } (m.setEntry q i e) (n.setEntry q i e) := by
  apply t.setEntry (by simp [hq])
    (t.inv.link hq hl hi hfree hheld hk hmapped hempty hpresent he hpage)
  intro p hp
  by_cases h : p=c
  · rw [h]
    exact hc
  · rw [update_of_ne h] at hp
    exact t.mem_label hp

theorem unlink (t : Twin g m n) (hq : g.label q=some (r,path))
    (hc : g.label c=some (r, i :: path))
    (hempty : ∀ j, j<512 → present (m.entry c j)=false) :
    Twin { g with
      label := update g.label c none
      held := update g.held c 1 } (m.setEntry q i 0) (n.setEntry q i 0) := by
  apply t.setEntry (by simp [hq]) (t.inv.unlink hq hc hempty)
  intro p hp
  by_cases h : p=c
  · rw [h]
    exact t.mem_label (by simp [hc])
  · rw [update_of_ne h] at hp
    exact t.mem_label hp

theorem newRoot (t : Twin g m n) (hheld : g.held r=1) (hk : m.kernelPages r=false)
    (hmapped : mappings m g.roots r=0) (hr : n.mem r=m.mem r)
    (hempty : ∀ i, i<256 → present (m.entry r i)=false) :
    r ∉ g.roots ∧ Twin { g with
      roots := insert r g.roots
      label := update g.label r (some (r, []))
      held := update g.held r 0 } m n := by
  obtain ⟨hnew,inv⟩ := t.inv.newRoot hheld hk hmapped hempty
  refine ⟨hnew,inv,t.pmm,t.kernelRoot,t.kernelPages,t.mem,?_,t.mem_kernelRoot,t.tail⟩
  intro p hp
  have hp : update g.label r (some (r, [])) p≠none := hp
  by_cases h : p=r
  · rw [h]
    exact hr
  · rw [update_of_ne h] at hp
    exact t.mem_label hp

theorem dropRoot (t : Twin g m n) (hr : r ∈ g.roots) :
    Twin { g with
      roots := g.roots.erase r
      label := Forest.withoutRoot g.label r
      held := fun p => g.held p+MemInv.ownedBy m g.label r p } m n := by
  refine ⟨t.inv.dropRoot hr,t.pmm,t.kernelRoot,t.kernelPages,t.mem,?_,t.mem_kernelRoot,t.tail⟩
  intro p hp
  apply t.mem_label
  intro hnone
  apply hp
  show Forest.withoutRoot g.label r p=none
  rw [Forest.withoutRoot,hnone]

end Tables

end Twin

end ConeOS.Memory
