import ConeOS.Memory.Spares

namespace ConeOS.Memory

open ConeOS.Library Machine Function

/-- Where a table of the kernel's upper half hangs: its level (3 below the root, 1 for the
tables of pages) and the entry that leads to it. -/
structure Place where
  level : Nat
  table : Nat
  index : Nat
  deriving DecidableEq

/-- The page `q` is a table of this level of the kernel's upper half. -/
def IsTable (m : Machine) (place : Nat → Option Place) (q level : Nat) : Prop :=
  (q=m.kernelRoot/4096 ∧ level=4) ∨ ∃ t i, place q=some ⟨level,t,i⟩

/-- The tables of the kernel's upper half hang each in one place, and all of them are in use. -/
structure KernelTables (m : Machine) (place : Nat → Option Place) : Prop where
  root : place (m.kernelRoot/4096)=none
  rootInUse : m.pmm.bitmap (m.kernelRoot/4096)=true
  inUse : ∀ {c p}, place c=some p → m.pmm.bitmap c=true ∧ p.level≤3
  address : ∀ {c p}, place c=some p → c<2 ^ 40
  child : ∀ {q l i}, IsTable m place q (l+1) → l≠0 → i<512 → (l=3 → 256 ≤ i) →
    present (m.entry q i)=true → huge (m.entry q i)=false →
    place (addressPage (m.entry q i))=some ⟨l,q,i⟩

section Updates

variable {m m' : Machine} {place : Nat → Option Place} {q l : Nat} {i c : Nat}

theorem IsTable.level_unique (k : KernelTables m place) {l' : Nat} (h : IsTable m place q l)
    (h' : IsTable m place q l') : l=l' := by
  rcases h with ⟨rfl,rfl⟩ | ⟨t,i,hq⟩ <;> rcases h' with ⟨hroot,rfl⟩ | ⟨t',i',hq'⟩
  · rfl
  · rw [k.root] at hq'
    cases hq'
  · rw [hroot,k.root] at hq
    cases hq
  · rw [hq] at hq'
    cases hq'
    rfl

theorem IsTable.inUse (k : KernelTables m place) (h : IsTable m place q l) :
    m.pmm.bitmap q=true := by
  rcases h with ⟨rfl,-⟩ | ⟨t,i,hq⟩
  · exact k.rootInUse
  · exact (k.inUse hq).1

theorem KernelTables.congr (k : KernelTables m place) (hroot : m'.kernelRoot=m.kernelRoot)
    (h : ∀ q l, IsTable m place q l → m'.mem q=m.mem q ∧ m'.pmm.bitmap q=true) :
    KernelTables m' place := by
  have htable {q l : Nat} (hq : IsTable m' place q l) : IsTable m place q l := by
    unfold IsTable at hq ⊢
    rwa [hroot] at hq
  refine ⟨by rw [hroot]; exact k.root,?_,?_,k.address,?_⟩
  · rw [hroot]
    exact (h _ 4 (Or.inl ⟨rfl,rfl⟩)).2
  · rintro c ⟨level,t,i⟩ hc
    exact ⟨(h c level (Or.inr ⟨t,i,hc⟩)).2,(k.inUse hc).2⟩
  · intro q l i hq hl hi hupper
    rw [entry,(h q _ (htable hq)).1]
    exact k.child (htable hq) hl hi hupper

theorem linked_entry (m : Machine) {q p j : Nat} (e : BitVec 64) (hp : p≠c)
    (h : p≠q ∨ j≠i) :
    ((clearPage c { m with pmm := takePage c m.pmm }).setEntry q i e).entry p j=m.entry p j := by
  rw [setEntry_entry_of_ne _ e h,entry,clearPage_mem_of_ne _ hp]
  rfl

/-- Hanging a new empty table into an entry that is not present. -/
theorem KernelTables.link (k : KernelTables m place) {e : BitVec 64}
    (hq : IsTable m place q (l+1)) (hl : l≤3) (hc : m.pmm.bitmap c=false)
    (hfree : present (m.entry q i)=false) (hpage : addressPage e=c) :
    KernelTables ((clearPage c { m with pmm := takePage c m.pmm }).setEntry q i e)
      (update place c (some ⟨l,q,i⟩)) := by
  have hother {p : Nat} (hp : m.pmm.bitmap p=true) : p≠c := Spares.ne hc hp
  have hqc : q≠c := hother (hq.inUse k)
  have hkeep {p : Nat} (hp : p≠c) : update place c (some ⟨l,q,i⟩) p=place p :=
    update_of_ne hp _ _
  have hbitmap {p : Nat} (hp : m.pmm.bitmap p=true) :
      (takePage c m.pmm).bitmap p=true := by
    simp only [takePage,update_apply]
    split_ifs <;> simp [hp]
  have htable {p l' : Nat} (hp : IsTable
      ((clearPage c { m with pmm := takePage c m.pmm }).setEntry q i e)
      (update place c (some ⟨l,q,i⟩)) p l') :
      (p=c ∧ l'=l) ∨ (p≠c ∧ IsTable m place p l') := by
    by_cases hpc : p=c
    · subst hpc
      refine Or.inl ⟨rfl,?_⟩
      rcases hp with ⟨hp,-⟩ | ⟨t,j,hp⟩
      · exact absurd hp.symm (hother k.rootInUse)
      · rw [update_self] at hp
        cases hp
        rfl
    · refine Or.inr ⟨hpc,?_⟩
      rcases hp with hp | ⟨t,j,hp⟩
      · exact Or.inl hp
      · rw [hkeep hpc] at hp
        exact Or.inr ⟨t,j,hp⟩
  refine ⟨?_,hbitmap k.rootInUse,?_,?_,?_⟩
  · show update place c _ (m.kernelRoot/4096)=none
    rw [hkeep (hother k.rootInUse)]
    exact k.root
  · intro p pl hp
    by_cases hpc : p=c
    · subst hpc
      rw [update_self] at hp
      cases hp
      exact ⟨by simp [setEntry,clearPage,takePage],hl⟩
    · rw [hkeep hpc] at hp
      exact ⟨hbitmap (k.inUse hp).1,(k.inUse hp).2⟩
  · intro p pl hp
    by_cases hpc : p=c
    · rw [hpc,← hpage]
      exact addressPage_lt e
    · rw [hkeep hpc] at hp
      exact k.address hp
  intro p l' j hp hl' hj hupper
  rcases htable hp with ⟨rfl,-⟩ | ⟨hpc,hold⟩
  · -- the new table is empty
    intro hpres
    rw [setEntry_entry_of_ne _ e (Or.inl (Ne.symm hqc)),clearPage_entry,present_zero] at hpres
    cases hpres
  by_cases hhere : p=q ∧ j=i
  · obtain ⟨rfl,rfl⟩ := hhere
    intro _ _
    have hlevel := hold.level_unique k hq
    rw [setEntry_entry_self,hpage,update_self]
    simp only [Option.some.injEq,Place.mk.injEq,and_true]
    omega
  · rw [linked_entry m e hpc (not_and_or.mp hhere)]
    intro hpres hhuge
    have hchild := k.child hold hl' hj hupper hpres hhuge
    rw [hkeep (hother (k.inUse hchild).1)]
    exact hchild

/-- Taking a table out of its entry and giving its page back. -/
theorem KernelTables.unlink (k : KernelTables m place) (hc : place c=some ⟨l,q,i⟩) :
    KernelTables ((m.setEntry q i 0).freePage c) (update place c none) := by
  have htable {p l' : Nat} (hp : IsTable ((m.setEntry q i 0).freePage c)
      (update place c none) p l') : p≠c ∧ IsTable m place p l' := by
    by_cases hpc : p=c
    · subst hpc
      rcases hp with ⟨hp,-⟩ | ⟨t,j,hp⟩
      · have hroot : place p=none := by
          rw [hp]
          exact k.root
        rw [hroot] at hc
        cases hc
      · rw [update_self] at hp
        cases hp
    · refine ⟨hpc,?_⟩
      rcases hp with hp | ⟨t,j,hp⟩
      · exact Or.inl hp
      · rw [update_of_ne hpc] at hp
        exact Or.inr ⟨t,j,hp⟩
  have hrootc : m.kernelRoot/4096≠c := by
    rintro rfl
    rw [k.root] at hc
    cases hc
  refine ⟨?_,?_,?_,?_,?_⟩
  · show update place c none (m.kernelRoot/4096)=none
    rw [update_of_ne hrootc]
    exact k.root
  · exact (freePage_bitmap_of_ne _ hrootc).trans k.rootInUse
  · intro p pl hp
    by_cases hpc : p=c
    · subst hpc
      rw [update_self] at hp
      cases hp
    · rw [update_of_ne hpc] at hp
      exact ⟨(freePage_bitmap_of_ne _ hpc).trans (k.inUse hp).1,(k.inUse hp).2⟩
  · intro p pl hp
    by_cases hpc : p=c
    · subst hpc
      exact k.address hc
    · rw [update_of_ne hpc] at hp
      exact k.address hp
  intro p l' j hp hl' hj hupper
  obtain ⟨-,hp⟩ := htable hp
  show present ((m.setEntry q i 0).entry p j)=true →
    huge ((m.setEntry q i 0).entry p j)=false →
    update place c none (addressPage ((m.setEntry q i 0).entry p j))=some ⟨l',p,j⟩
  rw [setEntry_entry]
  split_ifs with hhere
  · intro hpres
    rw [present_zero] at hpres
    cases hpres
  intro hpres hhuge
  have hchild := k.child hp hl' hj hupper hpres hhuge
  rw [update_of_ne]
  · exact hchild
  intro heq
  rw [heq,hc] at hchild
  cases hchild
  exact hhere ⟨rfl,rfl⟩

theorem KernelTables.setLeaf (k : KernelTables m place) (hq : IsTable m place q 1) (i : Nat)
    (e : BitVec 64) : KernelTables (m.setEntry q i e) place := by
  refine ⟨k.root,k.rootInUse,k.inUse,k.address,?_⟩
  intro p l' j hp hl' hj hupper
  have hne : p≠q := by
    rintro rfl
    have := IsTable.level_unique k hp hq
    omega
  rw [setEntry_entry_of_ne _ e (Or.inl hne)]
  exact k.child hp hl' hj hupper

end Updates

/-- The kernel's tables are in order, and what is in use besides them is as it was. -/
structure TablesOnly (m₀ : Machine) (place₀ : Nat → Option Place) (m : Machine)
    (place : Nat → Option Place) : Prop where
  tables : KernelTables m place
  pmm : PmmInv m.pmm
  kernelRoot : m.kernelRoot=m₀.kernelRoot
  kernelPages : m.kernelPages=m₀.kernelPages
  page : ∀ {p}, m₀.pmm.bitmap p=true → place₀ p=none → p≠m₀.kernelRoot/4096 →
    m.mem p=m₀.mem p ∧ m.pmm.bitmap p=true ∧ place p=none

/-- The tables a map has created so far, the latest and deepest first, from level `l` on; only
one of them can hang in the root, in an entry that was not present. -/
def CreatedFrom (m₀ m : Machine) (place : Nat → Option Place) (index : Nat) :
    Nat → List (Nat × Nat × Nat) → Prop
  | _, [] => True
  | l, (t,i,c) :: rest => ∃ l', l≤l' ∧ place c=some ⟨l',t,i⟩ ∧
      IsTable m place t (l'+1) ∧
      (t=m₀.kernelRoot/4096 → i=index ∧ present (m₀.entry (m₀.kernelRoot/4096) i)=false) ∧
      CreatedFrom m₀ m place index (l'+1) rest

/-- A map on its way: besides the tables only the root's entry `index` can have changed, and
only from one that is not present. -/
structure Descent (m₀ : Machine) (place₀ : Nat → Option Place) (index : Nat)
    (created : List (Nat × Nat × Nat)) (m : Machine) (place : Nat → Option Place) : Prop where
  only : TablesOnly m₀ place₀ m place
  rootEntry : ∀ j, m.entry (m₀.kernelRoot/4096) j=m₀.entry (m₀.kernelRoot/4096) j ∨
    (j=index ∧ present (m₀.entry (m₀.kernelRoot/4096) j)=false ∧
      (present (m.entry (m₀.kernelRoot/4096) j)=false ∨
        ∃ c, (m₀.kernelRoot/4096,j,c) ∈ created))

section Descents

variable {m₀ m m' : Machine} {place₀ place place' : Nat → Option Place} {index l : Nat}
  {created : List (Nat × Nat × Nat)} {q i c : Nat}

theorem TablesOnly.refl (k : KernelTables m place) (inv : PmmInv m.pmm) :
    TablesOnly m place m place :=
  ⟨k,inv,rfl,rfl,fun hb hp _ => ⟨rfl,hb,hp⟩⟩

theorem TablesOnly.ne_table (h : TablesOnly m₀ place₀ m place) {p : Nat}
    (hp : m₀.pmm.bitmap p=true) (hplace : place₀ p=none) (hroot : p≠m₀.kernelRoot/4096)
    (hq : IsTable m place q l) : p≠q := by
  rintro rfl
  rcases hq with ⟨hq,-⟩ | ⟨t,i,hq⟩
  · rw [h.kernelRoot] at hq
    exact hroot hq
  · rw [(h.page hp hplace hroot).2.2] at hq
    cases hq

theorem TablesOnly.unlink (h : TablesOnly m₀ place₀ m place)
    (hc : place c=some ⟨l,q,i⟩) (hq : IsTable m place q (l+1)) :
    TablesOnly m₀ place₀ ((m.setEntry q i 0).freePage c) (update place c none) := by
  refine ⟨h.tables.unlink hc,h.pmm.freePage (h.tables.address hc),h.kernelRoot,h.kernelPages,?_⟩
  intro p hb hp hroot
  obtain ⟨hmem,hb',hp'⟩ := h.page hb hp hroot
  have hpq : p≠q := h.ne_table hb hp hroot hq
  have hpc : p≠c := h.ne_table hb hp hroot (Or.inr ⟨q,i,hc⟩)
  refine ⟨(setEntry_mem_of_ne _ _ _ hpq).trans hmem,?_,?_⟩
  · exact (freePage_bitmap_of_ne _ hpc).trans hb'
  · rw [update_of_ne hpc]
    exact hp'

theorem TablesOnly.setLeaf (h : TablesOnly m₀ place₀ m place) (hq : IsTable m place q 1)
    (i : Nat) (e : BitVec 64) : TablesOnly m₀ place₀ (m.setEntry q i e) place := by
  refine ⟨h.tables.setLeaf hq i e,h.pmm,h.kernelRoot,h.kernelPages,?_⟩
  intro p hb hp hroot
  rw [setEntry_mem_of_ne _ _ _ (h.ne_table hb hp hroot hq)]
  exact h.page hb hp hroot

theorem CreatedFrom.mono {l' : Nat} (h : CreatedFrom m₀ m place index l created) (hl : l'≤l) :
    CreatedFrom m₀ m place index l' created := by
  cases created with
  | nil => trivial
  | cons x rest =>
    obtain ⟨k,hk,hrest⟩ := h
    exact ⟨k,by omega,hrest⟩

theorem CreatedFrom.congr (h : CreatedFrom m₀ m place index l created)
    (hroot : m'.kernelRoot=m.kernelRoot)
    (hplace : ∀ c p, place c=some p → l≤p.level → place' c=some p) :
    CreatedFrom m₀ m' place' index l created := by
  induction created generalizing l with
  | nil => trivial
  | cons x rest ih =>
    obtain ⟨l',hl',hc,ht,hfirst,hrest⟩ := h
    refine ⟨l',hl',hplace _ _ hc hl',?_,hfirst,?_⟩
    · rcases ht with ⟨ht,hlevel⟩ | ⟨t,i,ht⟩
      · exact Or.inl ⟨by rw [hroot]; exact ht,hlevel⟩
      · exact Or.inr ⟨t,i,hplace _ _ ht (by dsimp only; omega)⟩
    · exact ih hrest (fun c p hp hle => hplace c p hp (by omega))

/-- A new table below `q`. -/
theorem Descent.link (h : Descent m₀ place₀ index created m place) {e : BitVec 64}
    (hq : IsTable m place q (l+1)) (hl : l≤3) (hc : m.pmm.bitmap c=false)
    (hfree : present (m.entry q i)=false) (hpage : addressPage e=c)
    (hindex : q=m₀.kernelRoot/4096 → i=index) :
    Descent m₀ place₀ index ((q,i,c) :: created)
      ((clearPage c { m with pmm := takePage c m.pmm }).setEntry q i e)
      (update place c (some ⟨l,q,i⟩)) := by
  refine ⟨⟨h.only.tables.link hq hl hc hfree hpage,(h.only.pmm.takePage hc).1,h.only.kernelRoot,
    h.only.kernelPages,?_⟩,?_⟩
  · intro p hb hp hroot
    obtain ⟨hmem,hb',hp'⟩ := h.only.page hb hp hroot
    have hpq : p≠q := h.only.ne_table hb hp hroot hq
    have hpc : p≠c := Spares.ne hc hb'
    refine ⟨?_,?_,?_⟩
    · rw [setEntry_mem_of_ne _ _ _ hpq,clearPage_mem_of_ne _ hpc]
      exact hmem
    · show (takePage c m.pmm).bitmap p=true
      simp [takePage,hpc,hb']
    · rw [update_of_ne hpc]
      exact hp'
  intro j
  have hrootc : m₀.kernelRoot/4096≠c := by
    rw [← h.only.kernelRoot]
    exact Spares.ne hc h.only.tables.rootInUse
  by_cases hhere : m₀.kernelRoot/4096=q ∧ j=i
  · obtain ⟨rfl,rfl⟩ := hhere
    have hj := hindex rfl
    rcases h.rootEntry j with hsame | ⟨-,hno,-⟩
    · rw [hsame] at hfree
      exact Or.inr ⟨hj,hfree,Or.inr ⟨c,List.mem_cons_self⟩⟩
    · exact Or.inr ⟨hj,hno,Or.inr ⟨c,List.mem_cons_self⟩⟩
  · rw [linked_entry m e hrootc (not_and_or.mp hhere)]
    rcases h.rootEntry j with heq | ⟨hj,hno,hnow | ⟨c',hc'⟩⟩
    · exact Or.inl heq
    · exact Or.inr ⟨hj,hno,Or.inl hnow⟩
    · exact Or.inr ⟨hj,hno,Or.inr ⟨c',List.mem_cons_of_mem _ hc'⟩⟩

theorem Descent.unlink {t : Nat} (h : Descent m₀ place₀ index ((t,i,c) :: created) m place)
    (hc : place c=some ⟨l,t,i⟩) (ht : IsTable m place t (l+1))
    (hindex : t=m₀.kernelRoot/4096 →
      i=index ∧ present (m₀.entry (m₀.kernelRoot/4096) i)=false) :
    Descent m₀ place₀ index created ((m.setEntry t i 0).freePage c)
      (update place c none) := by
  refine ⟨h.only.unlink hc ht,?_⟩
  intro j
  show (m.setEntry t i 0).entry _ j=_ ∨ _
  by_cases hhere : m₀.kernelRoot/4096=t ∧ j=i
  · obtain ⟨rfl,rfl⟩ := hhere
    obtain ⟨hj,hno⟩ := hindex rfl
    refine Or.inr ⟨hj,hno,Or.inl ?_⟩
    show present ((m.setEntry _ j 0).entry _ j)=false
    rw [setEntry_entry_self,present_zero]
  have hsame : (m.setEntry t i 0).entry (m₀.kernelRoot/4096) j =
      m.entry (m₀.kernelRoot/4096) j := setEntry_entry_of_ne _ _ (not_and_or.mp hhere)
  rw [hsame]
  rcases h.rootEntry j with heq | ⟨hj,hno,hnow | ⟨c',hc'⟩⟩
  · exact Or.inl heq
  · refine Or.inr ⟨hj,hno,Or.inl ?_⟩
    show present ((m.setEntry t i 0).entry _ j)=false
    rw [hsame]
    exact hnow
  rcases List.mem_cons.mp hc' with heq | hc'
  · cases heq
    exact absurd ⟨rfl,rfl⟩ hhere
  · exact Or.inr ⟨hj,hno,Or.inr ⟨c',hc'⟩⟩

theorem Descent.setLeaf (h : Descent m₀ place₀ index created m place)
    (hq : IsTable m place q 1) (i : Nat) (e : BitVec 64) :
    Descent m₀ place₀ index created (m.setEntry q i e) place := by
  refine ⟨h.only.setLeaf hq i e,?_⟩
  intro j
  have hne : m₀.kernelRoot/4096≠q := by
    rintro rfl
    have hroot : IsTable m place (m₀.kernelRoot/4096) 4 :=
      Or.inl ⟨by rw [h.only.kernelRoot],rfl⟩
    have := IsTable.level_unique h.only.tables hroot hq
    omega
  rw [setEntry_entry_of_ne _ e (Or.inl hne)]
  exact h.rootEntry j

theorem Descent.rollback (h : Descent m₀ place₀ index created m place)
    (hcreated : CreatedFrom m₀ m place index l created) :
    ∃ place', Descent m₀ place₀ index [] (rollback created m) place' := by
  induction created generalizing m place l with
  | nil => exact ⟨place,h⟩
  | cons x rest ih =>
    obtain ⟨t,i,c⟩ := x
    obtain ⟨l',hl',hc,ht,hfirst,hrest⟩ := hcreated
    refine ih (h.unlink hc ht hfirst) (hrest.congr rfl ?_)
    intro c' p hp hle
    rw [update_of_ne]
    · exact hp
    rintro rfl
    rw [hc] at hp
    cases hp
    dsimp only at hle
    omega

end Descents

end ConeOS.Memory
