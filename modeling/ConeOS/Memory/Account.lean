import ConeOS.Library.Occurrence
import ConeOS.Memory.TableUpdate

namespace ConeOS.Memory

open ConeOS.Library Machine Function

/-- The page a user page is mapped to. -/
def leafPage (m : Machine) (root vpn : Nat) : Option Nat := (leafAt m root vpn).map addressPage

/-- How many user pages of the spaces are mapped to a page. -/
def mappings (m : Machine) (roots : Finset Nat) (page : Nat) : Nat :=
  occurrences (roots ×ˢ Finset.range userPages) (fun x => leafPage m x.1 x.2) page

def tag (label : Nat → Option Label) (page : Nat) : Nat := if label page=none then 0 else 1

/-- Everything that refers to a page: the tree it is a table of, the user pages mapped to
it, and the references in the hands of kernel code. -/
def total (m : Machine) (roots : Finset Nat) (label : Nat → Option Label) (held : Nat → Nat)
    (page : Nat) : Nat :=
  tag label page+mappings m roots page+held page

structure MemInv (m : Machine) (roots : Finset Nat) (label : Nat → Option Label)
    (held : Nat → Nat) : Prop where
  forest : Forest m roots label
  pmm : PmmInv m.pmm
  counted : ∀ {p}, managed m.pmm p=true →
    m.pmm.pageReferences p=total m roots label held p ∧
      (m.pmm.bitmap p=true ↔ 0<total m roots label held p)
  table : ∀ {p}, label p≠none → managed m.pmm p=true ∧ mappings m roots p=0 ∧ held p=0
  foreign : ∀ {p}, managed m.pmm p=false → m.pmm.bitmap p=true ∧ held p=0
  kernelRoot : managed m.pmm (m.kernelRoot/4096)=false
  kernelLower : ∀ {i}, i<256 → present (m.entry (m.kernelRoot/4096) i)=false
  kernelHeld : ∀ {p}, m.kernelPages p=true → 0<held p ∧ mappings m roots p=0

section Walks

variable {m m' : Machine} {roots : Finset Nat}

theorem entry_mem (h : m'.mem=m.mem) : m'.entry=m.entry := by
  funext q i
  rw [entry,entry,h]

theorem tableAt_mem (h : m'.mem=m.mem) (r : Nat) (path : List Nat) :
    tableAt m' r path=tableAt m r path := by
  induction path with
  | nil => rfl
  | cons i path ih => rw [tableAt,tableAt,ih,entry_mem h]

theorem leafAt_mem (h : m'.mem=m.mem) (r vpn : Nat) : leafAt m' r vpn=leafAt m r vpn := by
  rw [leafAt,leafAt,tableAt_mem h,entry_mem h]

theorem mappings_congr
    (h : ∀ r ∈ roots, ∀ vpn, vpn<userPages → leafAt m' r vpn=leafAt m r vpn) (p : Nat) :
    mappings m' roots p=mappings m roots p := by
  apply occurrences_congr
  rintro ⟨r,vpn⟩ hx
  rw [Finset.mem_product,Finset.mem_range] at hx
  simp only [leafPage,h r hx.1 vpn hx.2]

theorem mappings_pos {r vpn : Nat} {e : BitVec 64} (hr : r ∈ roots)
    (hv : vpn<userPages) (h : leafAt m r vpn=some e) :
    0 < mappings m roots (addressPage e) := by
  apply occurrences_pos (i := (r,vpn))
  · rw [Finset.mem_product,Finset.mem_range]
    exact ⟨hr,hv⟩
  · simp [leafPage,h]

end Walks

namespace MemInv

variable {m : Machine} {roots : Finset Nat} {label : Nat → Option Label} {held : Nat → Nat}
  {p r vpn q : Nat} {held' : Nat → Nat}

theorem bitmap_of_label (inv : MemInv m roots label held) (h : label p≠none) :
    m.pmm.bitmap p=true := by
  apply (inv.counted (inv.table h).1).2.mpr
  have : tag label p=1 := if_neg h
  unfold total
  omega

theorem bitmap_of_held (inv : MemInv m roots label held) (hm : managed m.pmm p=true)
    (h : 0<held p) : m.pmm.bitmap p=true := by
  apply (inv.counted hm).2.mpr
  unfold total
  omega

theorem managed_of_held (inv : MemInv m roots label held) (h : 0<held p) :
    managed m.pmm p=true := by
  cases hm : managed m.pmm p
  · have := (inv.foreign hm).2
    omega
  · rfl

theorem bitmap_of_leaf (inv : MemInv m roots label held) {e : BitVec 64}
    (hr : r ∈ roots) (hv : vpn<userPages) (h : leafAt m r vpn=some e) :
    managed m.pmm (addressPage e)=true ∧ m.pmm.bitmap (addressPage e)=true ∧
      label (addressPage e)=none ∧ hasFlag e vmmUser=true := by
  obtain ⟨q,hq,he,hp⟩ := (inv.forest.leafAt_iff hr hv e).mp h
  rw [← he] at hp ⊢
  obtain ⟨hu,hm⟩ := inv.forest.leaf hq rfl (Nat.mod_lt _ (by omega)) hp
  have hpos : 0 < mappings m roots (addressPage e) := mappings_pos hr hv h
  rw [← he] at hpos
  refine ⟨hm,?_,?_,hu⟩
  · apply (inv.counted hm).2.mpr
    unfold total
    omega
  · by_contra hl
    have := (inv.table hl).2.1
    omega

theorem free_page (inv : MemInv m roots label held) (h : m.pmm.bitmap p=false) :
    managed m.pmm p=true ∧ label p=none ∧ mappings m roots p=0 ∧ held p=0 ∧
      m.kernelPages p=false := by
  have hm := (inv.pmm.clear p h).1
  have hzero : total m roots label held p=0 := by
    have := (inv.counted hm).2
    rw [h] at this
    simpa using this
  unfold total at hzero
  have hheld : held p=0 := by omega
  refine ⟨hm,?_,by omega,hheld,?_⟩
  · by_contra hl
    have : tag label p=1 := if_neg hl
    omega
  · by_contra hk
    have := (inv.kernelHeld (by simpa using hk)).1
    omega

theorem unused_page (inv : MemInv m roots label held) (hm : managed m.pmm p=true)
    (hl : label p=none) (hmapped : mappings m roots p=0) (hheld : held p=0) :
    m.pmm.bitmap p=false := by
  have htag : tag label p=0 := if_pos hl
  have hbit := (inv.counted hm).2
  rw [total,htag,hmapped,hheld] at hbit
  simpa using hbit

/-- Only the allocator's state changed, in step with what is in hand. -/
theorem withPmm (inv : MemInv m roots label held) {pmm' : Pmm}
    (hsame : SameMap m.pmm pmm') (hpmm : PmmInv pmm')
    (hcounted : ∀ p, managed m.pmm p=true →
      pmm'.pageReferences p=tag label p+mappings m roots p+held' p ∧
        (pmm'.bitmap p=true ↔ 0<tag label p+mappings m roots p+held' p))
    (htable : ∀ p, label p≠none → held' p=0)
    (hforeign : ∀ p, managed m.pmm p=false → pmm'.bitmap p=true ∧ held' p=0)
    (hkernel : ∀ p, m.kernelPages p=true → 0<held' p) :
    MemInv { m with pmm := pmm' } roots label held' := by
  have hmap (p : Nat) : mappings { m with pmm := pmm' } roots p=mappings m roots p :=
    mappings_congr (fun r _ vpn _ => leafAt_mem rfl r vpn) p
  refine ⟨inv.forest.congr (fun _ _ => rfl) hsame.managed,hpmm,?_,?_,?_,?_,?_,?_⟩
  · intro p hp
    have hp : managed pmm' p=true := hp
    rw [hsame.managed] at hp
    rw [total,hmap]
    exact hcounted p hp
  · intro p hp
    obtain ⟨hm,hmapped,-⟩ := inv.table hp
    show managed pmm' p=true ∧ _
    rw [hsame.managed,hmap]
    exact ⟨hm,hmapped,htable p hp⟩
  · intro p hp
    have hp : managed pmm' p=false := hp
    rw [hsame.managed] at hp
    exact hforeign p hp
  · show managed pmm' _ = false
    rw [hsame.managed]
    exact inv.kernelRoot
  · exact inv.kernelLower
  · intro p hp
    rw [hmap]
    exact ⟨hkernel p hp,(inv.kernelHeld hp).2⟩

theorem takePage (inv : MemInv m roots label held) (hp : m.pmm.bitmap p=false) :
    MemInv { m with pmm := takePage p m.pmm } roots label (update held p 1) := by
  obtain ⟨hm,hlabel,hmapped,hheld,hkernel⟩ := inv.free_page hp
  obtain ⟨hpmm,hsame⟩ := inv.pmm.takePage hp
  apply inv.withPmm hsame hpmm
  · intro q hq
    by_cases h : q=p
    · subst h
      simp [Memory.takePage,tag,hlabel,hmapped]
    · have := inv.counted hq
      simpa [Memory.takePage,h,total] using this
  · intro q hq
    have hqp : q≠p := by
      rintro rfl
      exact hq hlabel
    rw [update_of_ne hqp]
    exact (inv.table hq).2.2
  · intro q hq
    have hqp : q≠p := by
      rintro rfl
      rw [hm] at hq
      cases hq
    simpa [Memory.takePage,hqp] using inv.foreign hq
  intro q hq
  have hqp : q≠p := by
    rintro rfl
    rw [hkernel] at hq
    cases hq
  rw [update_of_ne hqp]
  exact (inv.kernelHeld hq).1

theorem dropPage (inv : MemInv m roots label held) (hp : 0<held p)
    (hk : m.kernelPages p=true → 1<held p) :
    MemInv (m.freePage p) roots label (update held p (held p-1)) := by
  have hm := inv.managed_of_held hp
  have hb := inv.bitmap_of_held hm hp
  have hlabel : label p=none := by
    by_contra hl
    have := (inv.table hl).2.2
    omega
  obtain ⟨-,hother,hrefs,hbit,hsame⟩ := pmmFreePage_eq hm hb
  have hcount := (inv.counted hm).1
  have htag : tag label p=0 := if_pos hlabel
  unfold total at hcount
  apply inv.withPmm hsame (inv.pmm.dropReference hm hb)
  · intro q hq
    by_cases h : q=p
    · subst h
      rw [update_self]
      exact ⟨hrefs.trans (by omega),hbit.trans (by omega)⟩
    rw [update_of_ne h]
    have := inv.counted hq
    rw [total] at this
    show (dropReference p m.pmm).pageReferences q=_ ∧
      ((dropReference p m.pmm).bitmap q=true ↔ _)
    rw [(hother q h).1,(hother q h).2]
    exact this
  · intro q hq
    have hqp : q≠p := by
      rintro rfl
      exact hq hlabel
    rw [update_of_ne hqp]
    exact (inv.table hq).2.2
  · intro q hq
    have hqp : q≠p := by
      rintro rfl
      rw [hm] at hq
      cases hq
    rw [update_of_ne hqp]
    show (dropReference p m.pmm).bitmap q=true ∧ _
    rw [(hother q hqp).1]
    exact inv.foreign hq
  · intro q hq
    by_cases h : q=p
    · subst h
      rw [update_self]
      have := hk hq
      omega
    · rw [update_of_ne h]
      exact (inv.kernelHeld hq).1

theorem addPage (inv : MemInv m roots label held) (hm : managed m.pmm p=true)
    (hlabel : label p=none) (hb : m.pmm.bitmap p=true) :
    MemInv { m with pmm := addReference p m.pmm } roots label
      (update held p (held p+1)) := by
  have htag : tag label p=0 := if_pos hlabel
  have hsame : SameMap m.pmm (addReference p m.pmm) := ⟨fun _ => rfl,rfl⟩
  have hpmm : PmmInv (addReference p m.pmm) :=
    ⟨inv.pmm.clear,inv.pmm.bound,inv.pmm.search,inv.pmm.addresses⟩
  apply inv.withPmm hsame hpmm
  · intro q hq
    by_cases h : q=p
    · subst h
      have := inv.counted hq
      rw [total] at this
      simp only [addReference,update_self,hb,true_iff]
      exact ⟨by omega,by omega⟩
    · simpa [addReference,h,total] using inv.counted hq
  · intro q hq
    have hqp : q≠p := by
      rintro rfl
      exact hq hlabel
    rw [update_of_ne hqp]
    exact (inv.table hq).2.2
  · intro q hq
    have hqp : q≠p := by
      rintro rfl
      rw [hm] at hq
      cases hq
    rw [update_of_ne hqp]
    exact inv.foreign hq
  intro q hq
  by_cases h : q=p
  · subst h
    rw [update_self]
    omega
  · rw [update_of_ne h]
    exact (inv.kernelHeld hq).1

/-- Only memory changed: what refers to a page moved between tables, mappings and hands. -/
theorem rebuild (inv : MemInv m roots label held) {m' : Machine} {roots' : Finset Nat}
    {label' : Nat → Option Label} (hf : Forest m' roots' label')
    (hpmm : m'.pmm=m.pmm) (hroot : m'.kernelRoot=m.kernelRoot)
    (hpages : m'.kernelPages=m.kernelPages)
    (hmem : m'.mem (m.kernelRoot/4096)=m.mem (m.kernelRoot/4096))
    (hsum : ∀ p, total m' roots' label' held' p=total m roots label held p)
    (htable : ∀ p, label' p≠none →
      managed m.pmm p=true ∧ mappings m' roots' p=0 ∧ held' p=0)
    (hforeign : ∀ p, managed m.pmm p=false → held' p=0)
    (hkernel : ∀ p, m.kernelPages p=true → 0<held' p ∧ mappings m' roots' p=0) :
    MemInv m' roots' label' held' := by
  refine ⟨hf,by rw [hpmm]; exact inv.pmm,?_,?_,?_,?_,?_,?_⟩
  · intro p hp
    rw [hpmm] at hp ⊢
    rw [hsum]
    exact inv.counted hp
  · intro p hp
    rw [hpmm]
    exact htable p hp
  · intro p hp
    rw [hpmm] at hp ⊢
    exact ⟨(inv.foreign hp).1,hforeign p hp⟩
  · rw [hpmm,hroot]
    exact inv.kernelRoot
  · intro i hi
    rw [hroot,entry,hmem]
    exact inv.kernelLower hi
  · intro p hp
    rw [hpages] at hp
    exact hkernel p hp

theorem ne_kernelRoot (inv : MemInv m roots label held) (hq : managed m.pmm q=true) :
    m.kernelRoot/4096≠q := by
  rintro rfl
  rw [inv.kernelRoot] at hq
  cases hq

theorem label_ne_kernelRoot (inv : MemInv m roots label held) (hq : label q≠none) :
    m.kernelRoot/4096≠q :=
  inv.ne_kernelRoot (inv.table hq).1

theorem setPage_table (hp : label p=none) (hq : label q≠none) (b : Block) :
    (m.setPage p b).mem q=m.mem q := by
  apply setPage_mem_of_ne
  rintro rfl
  exact hq hp

theorem leafAt_setPage (inv : MemInv m roots label held) (hp : label p=none)
    (hr : r ∈ roots) (hv : vpn<userPages) (b : Block) :
    leafAt (m.setPage p b) r vpn=leafAt m r vpn := by
  have f' : Forest (m.setPage p b) roots label :=
    inv.forest.congr (fun _ hq => setPage_table hp hq b) (fun _ => rfl)
  apply inv.forest.leafAt_congr f' hr hr hv (fun _ => Iff.rfl)
  intro q hq
  rw [entry,entry,setPage_table hp (by simp [hq])]

theorem setPage (inv : MemInv m roots label held) (hp : label p=none)
    (hroot : m.kernelRoot/4096≠p) (b : Block) : MemInv (m.setPage p b) roots label held := by
  have hmap (q : Nat) : mappings (m.setPage p b) roots q=mappings m roots q :=
    mappings_congr (fun _ hr _ hv => inv.leafAt_setPage hp hr hv b) q
  apply inv.rebuild (inv.forest.congr (fun _ hq => setPage_table hp hq b) (fun _ => rfl)) rfl rfl
    rfl (setPage_mem_of_ne m b hroot)
  · intro q
    rw [total,total,hmap]
  · intro q hq
    rw [hmap]
    exact inv.table hq
  · intro q hq
    exact (inv.foreign hq).2
  · intro q hq
    rw [hmap]
    exact inv.kernelHeld hq

section Leaves

variable {q r i : Nat} {path : List Nat} {e : BitVec 64}

/-- How writing one leaf entry moves the count of a page. -/
theorem mappings_setLeaf (inv : MemInv m roots label held) (hq : label q=some (r,path))
    (hl : path.length=3) (hi : i<512)
    (he : present e=true → hasFlag e vmmUser=true ∧ managed m.pmm (addressPage e)=true)
    (p : Nat) :
    mappings (m.setEntry q i e) roots p +
        (if present (m.entry q i)=true ∧ addressPage (m.entry q i)=p then 1 else 0) =
      mappings m roots p+(if present e=true ∧ addressPage e=p then 1 else 0) := by
  obtain ⟨hpath,hmod,hv⟩ := pathOf_vpnOf (inv.forest.valid hq) hl hi
  have hr := inv.forest.owner hq
  have hold : leafAt m r (vpnOf path i) =
      if present (m.entry q i) then some (m.entry q i) else none := by
    rw [inv.forest.leafAt_of_label (by rw [hpath]; exact hq) hv,hmod]
  have hnew : leafAt (m.setEntry q i e) r (vpnOf path i)=if present e then some e else none := by
    rw [inv.forest.leafAt_setLeaf hq hl hi he hr hv,if_pos (And.intro rfl rfl)]
  have hmem : ((r,vpnOf path i) : Nat × Nat) ∈ roots ×ˢ Finset.range userPages := by
    rw [Finset.mem_product,Finset.mem_range]
    exact ⟨hr,hv⟩
  have hupdate := occurrences_update (f := fun x => leafPage m x.1 x.2)
    (g := fun x => leafPage (m.setEntry q i e) x.1 x.2) hmem ?_ p
  · simp only [leafPage,hold,hnew] at hupdate
    have hcond (w : BitVec 64) : ((if present w then some w else none).map addressPage=some p) ↔
        (present w=true ∧ addressPage w=p) := by
      cases present w <;> simp
    simp only [hcond] at hupdate
    exact hupdate
  rintro ⟨r',vpn⟩ hx hne
  rw [Finset.mem_product,Finset.mem_range] at hx
  simp only [leafPage]
  rw [inv.forest.leafAt_setLeaf hq hl hi he hx.1 hx.2,if_neg]
  rintro ⟨rfl,rfl⟩
  exact hne rfl

/-- A leaf for a page in hand. -/
theorem insertLeaf (inv : MemInv m roots label held) (hq : label q=some (r,path))
    (hl : path.length=3) (hi : i<512) (hold : present (m.entry q i)=false)
    (hp : present e=true) (hu : hasFlag e vmmUser=true)
    (hheld : 0<held (addressPage e)) (hk : m.kernelPages (addressPage e)=false) :
    MemInv (m.setEntry q i e) roots label
      (update held (addressPage e) (held (addressPage e)-1)) := by
  have hm := inv.managed_of_held hheld
  have he : present e=true → hasFlag e vmmUser=true ∧ managed m.pmm (addressPage e)=true :=
    fun _ => ⟨hu,hm⟩
  have hmap := inv.mappings_setLeaf hq hl hi he
  simp only [hold,hp,true_and,Bool.false_eq_true,false_and,if_false,Nat.add_zero] at hmap
  have hlabel : label (addressPage e)=none := by
    by_contra h
    have := (inv.table h).2.2
    omega
  apply inv.rebuild (inv.forest.setLeaf hq hl he) rfl rfl rfl
    (setEntry_mem_of_ne m i e (inv.label_ne_kernelRoot (by simp [hq])))
  · intro p
    rw [total,total,hmap]
    by_cases h : p=addressPage e
    · subst h
      rw [if_pos rfl,update_self]
      omega
    · rw [if_neg (Ne.symm h),update_of_ne h]
      omega
  · intro p hpl
    have hne : p≠addressPage e := by
      rintro rfl
      exact hpl hlabel
    rw [hmap,if_neg (Ne.symm hne),update_of_ne hne]
    exact inv.table hpl
  · intro p hpm
    have hne : p≠addressPage e := by
      rintro rfl
      rw [hm] at hpm
      cases hpm
    rw [update_of_ne hne]
    exact (inv.foreign hpm).2
  intro p hpk
  have hne : p≠addressPage e := by
    rintro rfl
    rw [hk] at hpk
    cases hpk
  rw [hmap,if_neg (Ne.symm hne),update_of_ne hne]
  exact inv.kernelHeld hpk

/-- The leaf that goes leaves its page in hand. -/
theorem removeLeaf (inv : MemInv m roots label held) (hq : label q=some (r,path))
    (hl : path.length=3) (hi : i<512) (hold : present (m.entry q i)=true) :
    MemInv (m.setEntry q i 0) roots label (update held (addressPage (m.entry q i))
      (held (addressPage (m.entry q i))+1)) := by
  have he : present 0=true → hasFlag 0 vmmUser=true ∧ managed m.pmm (addressPage 0)=true := by
    intro h
    rw [present_zero] at h
    cases h
  have hmap := inv.mappings_setLeaf hq hl hi he
  simp only [hold,present_zero,true_and,Bool.false_eq_true,false_and,if_false,Nat.add_zero] at hmap
  have hm : managed m.pmm (addressPage (m.entry q i))=true :=
    (inv.forest.leaf hq hl hi hold).2
  have hpos : 0 < mappings m roots (addressPage (m.entry q i)) := by
    have := hmap (addressPage (m.entry q i))
    rw [if_pos rfl] at this
    omega
  have hlabel : label (addressPage (m.entry q i))=none := by
    by_contra h
    have := (inv.table h).2.1
    omega
  apply inv.rebuild (inv.forest.setLeaf hq hl he) rfl rfl rfl
    (setEntry_mem_of_ne m i 0 (inv.label_ne_kernelRoot (by simp [hq])))
  · intro p
    rw [total,total,← hmap]
    by_cases h : p=addressPage (m.entry q i)
    · subst h
      rw [if_pos rfl,update_self]
      omega
    · rw [if_neg (Ne.symm h),update_of_ne h]
      omega
  · intro p hpl
    have hne : p≠addressPage (m.entry q i) := by
      rintro rfl
      exact hpl hlabel
    have := hmap p
    rw [if_neg (Ne.symm hne)] at this
    rw [update_of_ne hne]
    obtain ⟨h1,h2,h3⟩ := inv.table hpl
    exact ⟨h1,by omega,h3⟩
  · intro p hpm
    have hne : p≠addressPage (m.entry q i) := by
      rintro rfl
      rw [hm] at hpm
      cases hpm
    rw [update_of_ne hne]
    exact (inv.foreign hpm).2
  intro p hpk
  obtain ⟨h1,h2⟩ := inv.kernelHeld hpk
  have hne : p≠addressPage (m.entry q i) := by
    rintro rfl
    omega
  have := hmap p
  rw [if_neg (Ne.symm hne)] at this
  rw [update_of_ne hne]
  exact ⟨h1,by omega⟩

/-- New flags for the same page. -/
theorem changeLeaf (inv : MemInv m roots label held) (hq : label q=some (r,path))
    (hl : path.length=3) (hi : i<512) (hold : present (m.entry q i)=true)
    (hp : present e=true) (hu : hasFlag e vmmUser=true)
    (hpage : addressPage e=addressPage (m.entry q i)) :
    MemInv (m.setEntry q i e) roots label held := by
  have he : present e=true → hasFlag e vmmUser=true ∧ managed m.pmm (addressPage e)=true := by
    intro _
    rw [hpage]
    exact ⟨hu,(inv.forest.leaf hq hl hi hold).2⟩
  have hmap (p : Nat) : mappings (m.setEntry q i e) roots p=mappings m roots p := by
    have := inv.mappings_setLeaf hq hl hi he p
    rw [hpage,hp,hold] at this
    omega
  apply inv.rebuild (inv.forest.setLeaf hq hl he) rfl rfl rfl
    (setEntry_mem_of_ne m i e (inv.label_ne_kernelRoot (by simp [hq])))
  · intro p
    rw [total,total,hmap]
  · intro p hpl
    rw [hmap]
    exact inv.table hpl
  · intro p hpm
    exact (inv.foreign hpm).2
  · intro p hpk
    rw [hmap]
    exact inv.kernelHeld hpk

end Leaves

section Tables

variable {q r i c : Nat} {path : List Nat} {e : BitVec 64}

theorem tag_update_some (l : Label) (p : Nat) :
    tag (update label c (some l)) p=if p=c then 1 else tag label p := by
  by_cases h : p=c
  · subst h
    simp [tag]
  · simp [tag,h]

theorem tag_update_none (p : Nat) :
    tag (update label c none) p=if p=c then 0 else tag label p := by
  by_cases h : p=c
  · subst h
    simp [tag]
  · simp [tag,h]

/-- An empty page in hand becomes a table. -/
theorem link (inv : MemInv m roots label held) (hq : label q=some (r,path))
    (hl : path.length<3) (hi : i<userBound path) (hfree : present (m.entry q i)=false)
    (hheld : held c=1) (hk : m.kernelPages c=false) (hmapped : mappings m roots c=0)
    (hempty : ∀ j, present (m.entry c j)=false) (hpresent : present e=true)
    (he : TableEntry e) (hpage : addressPage e=c) :
    MemInv (m.setEntry q i e) roots (update label c (some (r, i :: path)))
      (update held c 0) := by
  have hm := inv.managed_of_held (p := c) (by omega)
  have hc : label c=none := by
    by_contra h
    have := (inv.table h).2.2
    omega
  have hmap (p : Nat) : mappings (m.setEntry q i e) roots p=mappings m roots p :=
    mappings_congr (fun _ hr' _ hv =>
      inv.forest.leafAt_link hq hl hi hfree hc hempty hpresent he hpage hr' hv) p
  apply inv.rebuild (inv.forest.link hq hl hi hfree hc hempty hpresent he hpage) rfl rfl rfl
    (setEntry_mem_of_ne m i e (inv.label_ne_kernelRoot (by simp [hq])))
  · intro p
    rw [total,total,hmap,tag_update_some]
    by_cases h : p=c
    · subst h
      have : tag label p=0 := if_pos hc
      rw [if_pos rfl,update_self]
      omega
    · rw [if_neg h,update_of_ne h]
  · intro p hpl
    rw [hmap]
    by_cases h : p=c
    · subst h
      exact ⟨hm,hmapped,update_self ..⟩
    · rw [update_of_ne h] at hpl ⊢
      exact inv.table hpl
  · intro p hpm
    have hne : p≠c := by
      rintro rfl
      rw [hm] at hpm
      cases hpm
    rw [update_of_ne hne]
    exact (inv.foreign hpm).2
  intro p hpk
  have hne : p≠c := by
    rintro rfl
    rw [hk] at hpk
    cases hpk
  rw [update_of_ne hne,hmap]
  exact inv.kernelHeld hpk

/-- An empty table is taken out of its tree and stays in hand. -/
theorem unlink (inv : MemInv m roots label held) (hq : label q=some (r,path))
    (hc : label c=some (r, i :: path)) (hempty : ∀ j, j<512 → present (m.entry c j)=false) :
    MemInv (m.setEntry q i 0) roots (update label c none) (update held c 1) := by
  obtain ⟨hm,hmapped,hheld⟩ := inv.table (p := c) (by simp [hc])
  have hmap (p : Nat) : mappings (m.setEntry q i 0) roots p=mappings m roots p :=
    mappings_congr (fun _ hr' _ hv => inv.forest.leafAt_unlink hq hc hempty hr' hv) p
  apply inv.rebuild (inv.forest.unlink hq hc hempty) rfl rfl rfl
    (setEntry_mem_of_ne m i 0 (inv.label_ne_kernelRoot (by simp [hq])))
  · intro p
    rw [total,total,hmap,tag_update_none]
    by_cases h : p=c
    · subst h
      have : tag label p=1 := if_neg (by simp [hc])
      rw [if_pos rfl,update_self]
      omega
    · rw [if_neg h,update_of_ne h]
  · intro p hpl
    have hne : p≠c := by
      rintro rfl
      rw [update_self] at hpl
      exact hpl rfl
    rw [update_of_ne hne] at hpl ⊢
    rw [hmap]
    exact inv.table hpl
  · intro p hpm
    have hne : p≠c := by
      rintro rfl
      rw [hm] at hpm
      cases hpm
    rw [update_of_ne hne]
    exact (inv.foreign hpm).2
  intro p hpk
  have hne : p≠c := by
    rintro rfl
    have := (inv.kernelHeld hpk).1
    omega
  rw [update_of_ne hne,hmap]
  exact inv.kernelHeld hpk

/-- A page in hand with an empty lower half becomes the root of a space. -/
theorem newRoot (inv : MemInv m roots label held) (hheld : held r=1)
    (hk : m.kernelPages r=false) (hmapped : mappings m roots r=0)
    (hempty : ∀ i, i<256 → present (m.entry r i)=false) :
    r ∉ roots ∧ MemInv m (insert r roots) (update label r (some (r, [])))
      (update held r 0) := by
  have hm := inv.managed_of_held (p := r) (by omega)
  have hlabel : label r=none := by
    by_contra h
    have := (inv.table h).2.2
    omega
  have hr : r ∉ roots := by
    intro h
    rw [(inv.forest.root r r).mpr ⟨rfl,h⟩] at hlabel
    cases hlabel
  have hmap (p : Nat) : mappings m (insert r roots) p=mappings m roots p := by
    unfold mappings
    rw [occurrences_erase (Finset.mem_insert_self r roots),Finset.erase_insert hr]
    have hzero : occurrences (Finset.range userPages) (fun k => leafPage m r k) p=0 := by
      rw [occurrences_eq_zero]
      intro vpn hv
      rw [Finset.mem_range] at hv
      simp [leafPage,inv.forest.leafAt_newRoot hr hlabel hempty hv]
    rw [hzero,Nat.add_zero]
  refine ⟨hr,inv.rebuild (inv.forest.newRoot hr hlabel hempty) rfl rfl rfl rfl ?_ ?_ ?_ ?_⟩
  · intro p
    rw [total,total,hmap,tag_update_some]
    by_cases h : p=r
    · subst h
      have : tag label p=0 := if_pos hlabel
      rw [if_pos rfl,update_self]
      omega
    · rw [if_neg h,update_of_ne h]
  · intro p hpl
    rw [hmap]
    by_cases h : p=r
    · subst h
      exact ⟨hm,hmapped,update_self ..⟩
    · rw [update_of_ne h] at hpl ⊢
      exact inv.table hpl
  · intro p hpm
    have hne : p≠r := by
      rintro rfl
      rw [hm] at hpm
      cases hpm
    rw [update_of_ne hne]
    exact (inv.foreign hpm).2
  intro p hpk
  have hne : p≠r := by
    rintro rfl
    rw [hk] at hpk
    cases hpk
  rw [update_of_ne hne,hmap]
  exact inv.kernelHeld hpk

end Tables

/-- What a space refers to: its tables and the pages its leaves map. -/
def ownedBy (m : Machine) (label : Nat → Option Label) (r p : Nat) : Nat :=
  (if (label p).map Prod.fst=some r then 1 else 0) +
    occurrences (Finset.range userPages) (fun vpn => leafPage m r vpn) p

/-- Giving up a space leaves in hand all it refers to. -/
theorem dropRoot (inv : MemInv m roots label held) (hr : r ∈ roots) :
    MemInv m (roots.erase r) (Forest.withoutRoot label r)
      (fun p => held p+ownedBy m label r p) := by
  have hmap (p : Nat) : mappings m roots p=mappings m (roots.erase r) p +
      occurrences (Finset.range userPages) (fun vpn => leafPage m r vpn) p :=
    occurrences_erase hr _ p
  have htag (p : Nat) : tag label p=tag (Forest.withoutRoot label r) p +
      if (label p).map Prod.fst=some r then 1 else 0 := by
    unfold tag Forest.withoutRoot
    cases label p with
    | none => simp
    | some l =>
      by_cases h : l.1=r <;> simp [h]
  have hforeign (p : Nat) (hp : managed m.pmm p=false) : ownedBy m label r p=0 := by
    have hlabel : label p=none := by
      by_contra h
      rw [(inv.table h).1] at hp
      cases hp
    have hzero : occurrences (Finset.range userPages) (fun vpn => leafPage m r vpn) p=0 := by
      rw [occurrences_eq_zero]
      intro vpn hv hleaf
      rw [Finset.mem_range] at hv
      obtain ⟨e,he,rfl⟩ := Option.map_eq_some_iff.mp hleaf
      rw [(inv.bitmap_of_leaf hr hv he).1] at hp
      cases hp
    rw [ownedBy,hzero,hlabel]
    rfl
  apply inv.rebuild (inv.forest.dropRoot r) rfl rfl rfl rfl
  · intro p
    rw [total,total,hmap p,htag p,ownedBy]
    omega
  · intro p hp
    obtain ⟨l,hl⟩ := Option.ne_none_iff_exists'.mp hp
    obtain ⟨hl',hne⟩ := Forest.withoutRoot_some.mp hl
    obtain ⟨hm,hmapped,hheld⟩ := inv.table (p := p) (by simp [hl'])
    have := hmap p
    rw [ownedBy,hl']
    simp only [Option.map_some,Option.some.injEq,hne,if_false]
    exact ⟨hm,by omega,by omega⟩
  · intro p hp
    rw [hforeign p hp,(inv.foreign hp).2]
  intro p hp
  obtain ⟨h1,h2⟩ := inv.kernelHeld hp
  have := hmap p
  exact ⟨by omega,by omega⟩

end MemInv

end ConeOS.Memory
