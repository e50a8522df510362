import ConeOS.Memory.Entry
import ConeOS.Memory.Forest

namespace ConeOS.Memory

open ConeOS.Library Machine

section Allocator

variable {m : Machine} {pmm : Pmm} {page : Nat}

theorem alloc_cases (reserve : Nat) (inv : PmmInv m.pmm) :
    m.alloc reserve=(none,m) ∨
      ∃ p, m.pmm.bitmap p=false ∧ p<2 ^ 40 ∧
        m.alloc reserve=(some p, { m with pmm := takePage p m.pmm }) := by
  unfold alloc
  rcases h : allocPageWithReserve reserve m.pmm with ⟨found,pmm⟩
  cases found with
  | none =>
    have hpmm := alloc_none h
    subst hpmm
    exact Or.inl rfl
  | some address =>
    obtain ⟨p,rfl,hfree,rfl⟩ := alloc_some h
    have hbound := (inv.clear p hfree).2
    have haddr := inv.addresses
    refine Or.inr ⟨p,hfree,by omega,?_⟩
    simp only [Nat.mul_div_cancel p (show 0<4096 by omega)]

theorem pmmFreePage_cases (hpage : page<2 ^ 40) (pmm : Pmm) :
    (pmmFreePage (page*4096) pmm).2=pmm ∨
      (managed pmm page=true ∧ pmm.bitmap page=true) := by
  have hdiv : page*4096/4096=page := Nat.mul_div_cancel _ (by omega)
  by_cases husable : pageIsUsable pmm (page*4096)=true
  · by_cases hmeta : isMetadata pmm (page*4096)=true
    · left
      simp [pmmFreePage,husable,hmeta]
    by_cases hb : pmm.bitmap page=true
    · exact Or.inr ⟨by simp only [managed,hpage,husable,hmeta]; rfl,hb⟩
    · left
      simp [pmmFreePage,husable,hmeta,hdiv,hb]
  · left
    simp [pmmFreePage,husable]

theorem PmmInv.freePage (inv : PmmInv pmm) (hpage : page<2 ^ 40) :
    PmmInv (pmmFreePage (page*4096) pmm).2 := by
  rcases pmmFreePage_cases hpage pmm with h | ⟨hm,hb⟩
  · rw [h]
    exact inv
  · exact inv.dropReference hm hb

theorem freePage_bitmap_of_ne (m : Machine) {q : Nat} (h : q≠page) :
    (m.freePage page).pmm.bitmap q=m.pmm.bitmap q := by
  have hdiv : page*4096/4096=page := Nat.mul_div_cancel _ (by omega)
  unfold Machine.freePage pmmFreePage
  rw [hdiv]
  dsimp only
  split_ifs <;> simp [h]

theorem PmmInv.free_lt (inv : PmmInv pmm) (h : pmm.bitmap page=false) :
    page<2 ^ 40 :=
  Nat.lt_of_lt_of_le (inv.clear page h).2 inv.addresses

end Allocator

/-- Everything in use in `base` is still in use and holds what it held. -/
structure Spares (base m : Machine) : Prop where
  page : ∀ {p}, base.pmm.bitmap p=true → m.mem p=base.mem p ∧ m.pmm.bitmap p=true
  free : ∀ {p}, base.pmm.bitmap p=false → p<2 ^ 40
  pmm : PmmInv m.pmm
  kernelRoot : m.kernelRoot=base.kernelRoot
  kernelPages : m.kernelPages=base.kernelPages

namespace Spares

variable {base m m' : Machine} {p : Nat}

theorem refl (inv : PmmInv m.pmm) : Spares m m :=
  ⟨fun h => ⟨rfl,h⟩,inv.free_lt,inv,rfl,rfl⟩

theorem trans (h : Spares base m) (h' : Spares m m') : Spares base m' := by
  refine ⟨?_,h.free,h'.pmm,h'.kernelRoot.trans h.kernelRoot,h'.kernelPages.trans h.kernelPages⟩
  intro p hp
  obtain ⟨hmem,hb⟩ := h.page hp
  obtain ⟨hmem',hb'⟩ := h'.page hb
  exact ⟨hmem'.trans hmem,hb'⟩

theorem ne (hp : base.pmm.bitmap p=false) {q : Nat} (hq : base.pmm.bitmap q=true) : q≠p := by
  rintro rfl
  rw [hp] at hq
  cases hq

theorem take (h : Spares base m) (hp : m.pmm.bitmap p=false) :
    Spares base { m with pmm := takePage p m.pmm } := by
  refine ⟨?_,h.free,(h.pmm.takePage hp).1,h.kernelRoot,h.kernelPages⟩
  intro q hq
  obtain ⟨hmem,hb⟩ := h.page hq
  refine ⟨hmem,?_⟩
  simp only [takePage,Function.update_apply]
  split_ifs <;> simp [hb]

theorem setPage (h : Spares base m) (hp : base.pmm.bitmap p=false) (b : Block) :
    Spares base (m.setPage p b) := by
  refine ⟨?_,h.free,h.pmm,h.kernelRoot,h.kernelPages⟩
  intro q hq
  rw [setPage_mem_of_ne _ _ (ne hp hq)]
  exact h.page hq

theorem setEntry (h : Spares base m) (hp : base.pmm.bitmap p=false) (i : Nat) (e : BitVec 64) :
    Spares base (m.setEntry p i e) := h.setPage hp _

theorem freePage (h : Spares base m) (hp : base.pmm.bitmap p=false) :
    Spares base (m.freePage p) := by
  refine ⟨?_,h.free,h.pmm.freePage (h.free hp),h.kernelRoot,h.kernelPages⟩
  intro q hq
  rw [freePage_bitmap_of_ne m (ne hp hq)]
  exact h.page hq

end Spares

/-- The pages of a tree of cloned tables: the page itself, and above the last level what its
entries lead to. -/
def TreeAll (P : Nat → Prop) (m : Machine) : Nat → Nat → Prop
  | 0, page => P page
  | 1, page => P page
  | level+2, page => P page ∧ ∀ i<512, present (m.entry page i)=true →
      huge (m.entry page i)=false → TreeAll P m (level+1) (addressPage (m.entry page i))

section Clones

variable {base m m' : Machine} {P Q : Nat → Prop} {level page : Nat}

theorem TreeAll.self (h : TreeAll P m level page) : P page := by
  match level with
  | 0 => exact h
  | 1 => exact h
  | _+2 => exact h.1

theorem TreeAll.mono (hpq : ∀ p, P p → Q p) (hmem : ∀ p, P p → m'.mem p=m.mem p)
    (h : TreeAll P m level page) : TreeAll Q m' level page := by
  induction level using Nat.strong_induction_on generalizing page with
  | _ level ih =>
    match level with
    | 0 => exact hpq _ h
    | 1 => exact hpq _ h
    | level+2 =>
      refine ⟨hpq _ h.1,?_⟩
      intro i hi
      rw [entry,hmem page h.1]
      intro hp hh
      exact ih (level+1) (by omega) (h.2 i hi hp hh)

theorem destroyClonedTables_mem (level page : Nat) (m : Machine) :
    (destroyClonedTables level page m).mem=m.mem := by
  induction level generalizing page m with
  | zero => rfl
  | succ level ih =>
    unfold destroyClonedTables
    show Machine.mem (if level=0 then m else _)=m.mem
    split_ifs
    · rfl
    apply foldl_invariant (P := fun n : Machine => n.mem=m.mem) rfl
    intro i _ n hn
    dsimp only
    split_ifs
    · rw [ih,hn]
    · exact hn

theorem Spares.destroyClonedTables (h : Spares base m)
    (htree : TreeAll (fun p => base.pmm.bitmap p=false) m level page) :
    Spares base (destroyClonedTables level page m) := by
  induction level generalizing page m with
  | zero => exact h.freePage htree.self
  | succ level ih =>
    unfold Memory.destroyClonedTables
    refine Spares.freePage ?_ htree.self
    split_ifs with hlevel
    · exact h
    obtain ⟨level,rfl⟩ := Nat.exists_eq_succ_of_ne_zero hlevel
    -- the contents of the tree do not change while its pages go
    refine (foldl_invariant (P := fun n => Spares base n ∧ n.mem=m.mem) ⟨h,rfl⟩ ?_).1
    rintro i hi n ⟨hn,hmem⟩
    dsimp only
    split_ifs with hflags
    · refine ⟨?_,by rw [destroyClonedTables_mem,hmem]⟩
      rw [entry,hmem] at hflags ⊢
      simp only [Bool.and_eq_true,Bool.not_eq_true'] at hflags
      have hchild := htree.2 i (List.mem_range.mp hi) hflags.1 hflags.2
      exact ih hn (hchild.mono (fun _ hp => hp) (fun p _ => by rw [hmem]))
    · exact ⟨hn,hmem⟩

/-- A tree built from pages that were free in `base` and are in use now. -/
def FreshTree (base m : Machine) (level page : Nat) : Prop :=
  TreeAll (fun p => base.pmm.bitmap p=false ∧ m.pmm.bitmap p=true) m level page

theorem FreshTree.outside (h : FreshTree base m level page) :
    TreeAll (fun p => base.pmm.bitmap p=false) m level page :=
  TreeAll.mono (fun _ hp => hp.1) (fun _ _ => rfl) h

/-- A new table `d` that is being filled: it is in use, and those of its entries that lead to
tables lead to trees built after it. -/
structure Filling (base : Machine) (d level : Nat) (leads : BitVec 64 → Prop) (n : Machine) :
    Prop where
  spares : Spares base n
  inUse : n.pmm.bitmap d=true
  trees : ∀ i, leads (n.entry d i) →
    TreeAll (fun p => base.pmm.bitmap p=false ∧ p≠d ∧ n.pmm.bitmap p=true) n level
      (addressPage (n.entry d i))

section Filling

variable {d level : Nat} {leads : BitVec 64 → Prop} {n n' : Machine}

theorem Filling.start (leads : BitVec 64 → Prop) (h : Spares base m) (hd : m.pmm.bitmap d=false)
    (hbase : base.pmm.bitmap d=false) (level : Nat) (hzero : ¬ leads 0) :
    Filling base d level leads (clearPage d { m with pmm := takePage d m.pmm }) := by
  refine ⟨(h.take hd).setPage hbase _,by simp [takePage],?_⟩
  intro i hi
  rw [clearPage_entry] at hi
  exact absurd hi hzero

theorem Filling.setEntry {i : Nat} {e : BitVec 64} (h : Filling base d level leads n)
    (hd : base.pmm.bitmap d=false)
    (he : leads e → TreeAll (fun p => base.pmm.bitmap p=false ∧ p≠d ∧ n.pmm.bitmap p=true)
      n level (addressPage e)) : Filling base d level leads (n.setEntry d i e) := by
  have hkeep {l page : Nat}
      (ht : TreeAll (fun p => base.pmm.bitmap p=false ∧ p≠d ∧ n.pmm.bitmap p=true) n l page) :
      TreeAll (fun p => base.pmm.bitmap p=false ∧ p≠d ∧ n.pmm.bitmap p=true)
        (n.setEntry d i e) l page :=
    ht.mono (fun _ hp => hp) (fun p hp => setEntry_mem_of_ne n i e hp.2.1)
  refine ⟨h.spares.setEntry hd i e,h.inUse,?_⟩
  intro j
  rw [setEntry_entry]
  split_ifs with hij
  · exact fun hl => hkeep (he hl)
  · exact fun hl => hkeep (h.trees j hl)

theorem Filling.grow (h : Filling base d level leads n) (hn : Spares n n') :
    Filling base d level leads n' := by
  obtain ⟨hmem,hb⟩ := hn.page h.inUse
  refine ⟨h.spares.trans hn,hb,?_⟩
  intro i
  rw [entry,hmem]
  intro hl
  exact (h.trees i hl).mono (fun _ hq => ⟨hq.1,hq.2.1,(hn.page hq.2.2).2⟩)
    (fun _ hq => (hn.page hq.2.2).1)

theorem Filling.child {l page : Nat} (h : Filling base d level leads n)
    (ht : FreshTree n n' l page) :
    TreeAll (fun p => base.pmm.bitmap p=false ∧ p≠d ∧ n'.pmm.bitmap p=true) n' l page := by
  refine ht.mono ?_ (fun _ _ => rfl)
  rintro p ⟨hfree,hused⟩
  refine ⟨?_,?_,hused⟩
  · by_contra hb
    rw [Bool.not_eq_false] at hb
    rw [(h.spares.page hb).2] at hfree
    cases hfree
  · rintro rfl
    rw [h.inUse] at hfree
    cases hfree

theorem Filling.hang {i c : Nat} (h : Filling base d level leads n)
    (hd : base.pmm.bitmap d=false) (hn : Spares n n') (ht : FreshTree n n' level c)
    (e : BitVec 64) :
    Filling base d level leads (n'.setEntry d i (tableEntry c (e &&& ~~~addressMask))) := by
  have hpage : addressPage (tableEntry c (e &&& ~~~addressMask))=c := by
    have hbound := (h.spares.pmm.clear c ht.self.1).2
    have haddr := h.spares.pmm.addresses
    exact (movedEntry e (by omega)).2.2.2
  refine (h.grow hn).setEntry hd ?_
  intro _
  rw [hpage]
  exact h.child ht

/-- The entries of a cloned table that lead to tables. -/
def LeadsDown (level : Nat) (e : BitVec 64) : Prop :=
  present e=true ∧ huge e=false ∧ level≠0

theorem Filling.tree (h : Filling base d level (LeadsDown level) n)
    (hd : base.pmm.bitmap d=false) : FreshTree base n (level+1) d := by
  cases level with
  | zero => exact ⟨hd,h.inUse⟩
  | succ level =>
    refine ⟨⟨hd,h.inUse⟩,?_⟩
    intro i _ hp hh
    exact (h.trees i ⟨hp,hh,by omega⟩).mono (fun _ hq => ⟨hq.1,hq.2.2⟩) (fun _ _ => rfl)

end Filling

/-- What a call of `clone_table` for this level owes its caller. -/
def ClonesFresh (level : Nat) (clone : Nat → Machine → Option Nat × Machine) : Prop :=
  ∀ source m, PmmInv m.pmm → Spares m (clone source m).2 ∧
    ∀ d, (clone source m).1=some d → FreshTree m (clone source m).2 level d

theorem ClonesFresh.cloneLevel {clone : Nat → Machine → Option Nat × Machine}
    (hclone : ClonesFresh level clone) (indices : List Nat) :
    ClonesFresh (level+1) (fun source m => cloneLevel clone level source indices m) := by
  intro source m inv
  beta_reduce
  unfold Memory.cloneLevel
  rcases alloc_cases 0 inv with halloc | ⟨d,hfree,-,halloc⟩
  · simp only [allocPage,halloc]
    refine ⟨Spares.refl inv,?_⟩
    intro d hd
    cases hd
  simp only [allocPage,halloc]
  generalize hloop : loopAll _ _ _ = copied
  have hfill : Filling m d level (LeadsDown level) copied.2 := by
    rw [← hloop]
    refine loopAll_invariant (P := Filling m d level (LeadsDown level)) ?_ ?_
    · refine Filling.start _ (Spares.refl inv) hfree hfree level ?_
      rintro ⟨hp,-⟩
      rw [present_zero] at hp
      cases hp
    intro i _ n hn
    split_ifs with hcopy
    · refine hn.setEntry hfree ?_
      rintro ⟨hp,hh,hl⟩
      simp [hp,hh,hl] at hcopy
    obtain ⟨hsp,htree⟩ := hclone (addressPage (n.entry source i)) n hn.spares.pmm
    generalize clone (addressPage (n.entry source i)) n=r at hsp htree ⊢
    obtain ⟨c,n'⟩ := r
    cases c with
    | none => exact hn.grow hsp
    | some c => exact hn.hang hfree hsp (htree c rfl) _
  obtain ⟨ok,n⟩ := copied
  cases ok with
  | true =>
    refine ⟨hfill.spares,?_⟩
    intro d' hd'
    cases hd'
    exact hfill.tree hfree
  | false =>
    refine ⟨hfill.spares.destroyClonedTables (hfill.tree hfree).outside,?_⟩
    intro d' hd'
    cases hd'

theorem cloneTable_fresh (level : Nat) : ClonesFresh level (cloneTable level) := by
  induction level with
  | zero =>
    intro source m inv
    refine ⟨Spares.refl inv,?_⟩
    intro d hd
    cases hd
  | succ level ih =>
    intro source m inv
    exact ih.cloneLevel (List.range 512) source m inv

theorem cloneLowerHalf_fills {root : Nat} {n : Machine} (is : List Nat)
    (hroot : base.pmm.bitmap root=false)
    (h : Filling base root 3 (fun e => present e=true) n) :
    Filling base root 3 (fun e => present e=true) (cloneLowerHalf root is n).2 := by
  induction is generalizing n with
  | nil => exact h
  | cons i is ih =>
    unfold cloneLowerHalf
    dsimp only
    split_ifs
    · exact ih h
    generalize n.entry (n.kernelRoot/4096) i=e
    obtain ⟨hsp,htree⟩ := cloneTable_fresh 3 (addressPage e) n h.spares.pmm
    generalize cloneTable 3 (addressPage e) n=r at hsp htree ⊢
    obtain ⟨c,n'⟩ := r
    cases c with
    | none => exact h.grow hsp
    | some c => exact ih (h.hang hroot hsp (htree c rfl) e)

/-- A failing create takes back what it built; a successful one leaves a new root whose upper
half is the kernel's. -/
theorem vmmSpaceCreate_spares (work : KernelWork) (m : Machine)
    (inv : PmmInv (runKernel work.steps m).pmm)
    (hkernel : (runKernel work.steps m).pmm.bitmap
      ((runKernel work.steps m).kernelRoot/4096)=true) :
    let m₁ := runKernel work.steps m
    Spares m₁ (vmmSpaceCreate work m).2 ∧
      ∀ space, (vmmSpaceCreate work m).1=some space →
        ∃ root, space=⟨root*4096,false⟩ ∧ m₁.pmm.bitmap root=false ∧
          (vmmSpaceCreate work m).2.pmm.bitmap root=true ∧
          ∀ i, 256 ≤ i → (vmmSpaceCreate work m).2.entry root i =
            m₁.entry (m₁.kernelRoot/4096) i := by
  intro m₁
  have hm₁ : runKernel work.steps m=m₁ := rfl
  clear_value m₁
  rw [hm₁] at inv hkernel
  have hnone : ∀ space : VmmSpace, (none : Option VmmSpace)=some space →
      ∃ root, space=⟨root*4096,false⟩ ∧ m₁.pmm.bitmap root=false ∧
        m₁.pmm.bitmap root=true ∧
        ∀ i, 256 ≤ i → m₁.entry root i=m₁.entry (m₁.kernelRoot/4096) i := by
    intro space h
    cases h
  unfold vmmSpaceCreate kmalloc
  rw [hm₁]
  cases work.ok with
  | false => exact ⟨Spares.refl inv,hnone⟩
  | true =>
    rcases alloc_cases 0 inv with halloc | ⟨root,hfree,-,halloc⟩
    · simp only [allocPage,halloc]
      exact ⟨Spares.refl inv,hnone⟩
    simp only [allocPage,halloc]
    have hstart := Filling.start (fun e => present e=true) (Spares.refl inv) hfree hfree 3
      (by simpa using present_zero)
    have hfill := cloneLowerHalf_fills (List.range 256) hfree hstart
    generalize cloneLowerHalf root (List.range 256) _ = r at hfill ⊢
    obtain ⟨stopped,n⟩ := r
    cases stopped with
    | some i =>
      refine ⟨Spares.freePage ?_ hfree,by simp⟩
      refine (foldl_invariant (P := fun k : Machine => Spares m₁ k ∧ k.mem=n.mem)
        ⟨hfill.spares,rfl⟩ ?_).1
      rintro j _ k ⟨hk,hmem⟩
      split_ifs with hp
      · refine ⟨?_,by rw [destroyClonedTables_mem,hmem]⟩
        rw [entry,hmem] at hp ⊢
        exact hk.destroyClonedTables ((hfill.trees j hp).mono (fun _ hq => hq.1)
          (fun _ _ => by rw [hmem]))
      · exact ⟨hk,hmem⟩
    | none =>
      refine ⟨hfill.spares.setPage hfree _,?_⟩
      intro space hspace
      cases hspace
      refine ⟨root,rfl,hfree,hfill.inUse,?_⟩
      intro i hi
      have hne : ¬ i<256 := by omega
      rw [entry,setPage_mem,if_pos rfl,if_neg hne,hfill.spares.kernelRoot,
        (hfill.spares.page hkernel).1]
      rfl

end Clones

end ConeOS.Memory
