import Mathlib.Data.Set.Insert
import ConeOS.Memory.KernelView

namespace ConeOS.Memory

open ConeOS.Library Machine Function

/-- A page of the allocator with a single holder: the next free gives it back. -/
structure OwnPage (pmm : Pmm) (p : Nat) : Prop where
  managed : managed pmm p=true
  single : pmm.pageReferences p=1

/-- `place` lists the tables of the kernel's upper half and nothing else; all of them can be
written through, and none but `hole` is empty. -/
structure SoundTables (hole : Nat) (m : Machine) (place : Nat → Option Place) : Prop where
  tables : KernelTables m place
  pmm : PmmInv m.pmm
  parent : ∀ {c l q i}, place c=some ⟨l,q,i⟩ → IsTable m place q (l+1) ∧ l≠0 ∧ i<512 ∧
    (l=3 → 256 ≤ i) ∧ Leads m q i c ∧ hasFlag (m.entry q i) vmmWritable=true
  filled : ∀ {c p}, place c=some p → c≠hole → ∃ i<512, present (m.entry c i)=true

/-- The machine has come from `m₀` by mapping pages: the tables of `m₀` are where they were and
have the entries they had, and all huge pages are in them. The other tables and the pages in
`data` were free in `m₀`, and the allocator has given out nothing else. -/
structure Grown (m₀ : Machine) (place₀ : Nat → Option Place) (data : Set Nat) (hole : Nat)
    (m : Machine) (place : Nat → Option Place) : Prop where
  base : SoundTables (m₀.kernelRoot/4096) m₀ place₀
  sound : SoundTables hole m place
  kernelRoot : m.kernelRoot=m₀.kernelRoot
  kept : ∀ {c p}, place₀ c=some p → place c=some p
  entries : ∀ {q l j}, IsTable m₀ place₀ q l → j<512 → (l=4 → 256≤j) →
    present (m₀.entry q j)=true → m.entry q j=m₀.entry q j
  own : ∀ {c p}, place c=some p → place₀ c=none → OwnPage m.pmm c ∧ m₀.pmm.bitmap c=false
  small : ∀ {q l j}, IsTable m place q l → l≠1 → present (m.entry q j)=true →
    huge (m.entry q j)=true → IsTable m₀ place₀ q l ∧ present (m₀.entry q j)=true
  held : ∀ {p}, p ∈ data → OwnPage m.pmm p ∧ place p=none ∧ m₀.pmm.bitmap p=false
  account : ∀ p, m.pmm.bitmap p=true ↔
    m₀.pmm.bitmap p=true ∨ (place p≠none ∧ place₀ p=none) ∨ p ∈ data

section Pages

variable {m : Machine} {p q : Nat}

theorem takePage_bitmap (pmm : Pmm) (p q : Nat) :
    (takePage p pmm).bitmap q=true ↔ q=p ∨ pmm.bitmap q=true := by
  by_cases h : q=p <;> simp [takePage,h]

theorem OwnPage.of_take (inv : PmmInv m.pmm) (hp : m.pmm.bitmap p=false) :
    OwnPage (takePage p m.pmm) p :=
  ⟨(inv.clear p hp).1,update_self ..⟩

theorem OwnPage.take (h : OwnPage m.pmm q) (hne : q≠p) : OwnPage (takePage p m.pmm) q :=
  ⟨h.managed,(update_of_ne hne _ _).trans h.single⟩

theorem OwnPage.free_bitmap (h : OwnPage m.pmm p) (hb : m.pmm.bitmap p=true) (q : Nat) :
    (m.freePage p).pmm.bitmap q=true ↔ q≠p ∧ m.pmm.bitmap q=true := by
  by_cases hq : q=p
  · subst hq
    have hfree : (m.freePage q).pmm.bitmap q=true ↔ 1 < m.pmm.pageReferences q :=
      (pmmFreePage_eq h.managed hb).2.2.2.1
    rw [hfree,h.single]
    simp
  · rw [freePage_bitmap_of_ne m hq]
    simp [hq]

theorem OwnPage.free (h : OwnPage m.pmm q) (hp : OwnPage m.pmm p) (hb : m.pmm.bitmap p=true)
    (hne : q≠p) : OwnPage (m.freePage p).pmm q := by
  obtain ⟨-,hother,-,-,hsame⟩ := pmmFreePage_eq hp.managed hb
  exact ⟨(hsame.managed q).trans h.managed,(hother q hne).2.trans h.single⟩

theorem managed_lt (h : managed m.pmm p=true) : p<2 ^ 40 := by
  simp only [managed,Bool.and_eq_true,decide_eq_true_eq] at h
  exact h.1.1

end Pages

namespace Grown

variable {m₀ m m' : Machine} {place₀ place : Nat → Option Place} {data : Set Nat}
  {hole q l i c t : Nat} {p : Place} {e : BitVec 64}

theorem root_none (h : Grown m₀ place₀ data hole m place) :
    place (m₀.kernelRoot/4096)=none := by
  rw [← h.kernelRoot]
  exact h.sound.tables.root

theorem rootTable (h : Grown m₀ place₀ data hole m place) :
    IsTable m place (m₀.kernelRoot/4096) 4 :=
  Or.inl ⟨by rw [h.kernelRoot],rfl⟩

theorem isTable (h : Grown m₀ place₀ data hole m place) (hq : IsTable m₀ place₀ q l) :
    IsTable m place q l := by
  rcases hq with ⟨rfl,rfl⟩ | ⟨t,i,hq⟩
  · exact h.rootTable
  · exact Or.inr ⟨t,i,h.kept hq⟩

theorem placed_inUse (h : Grown m₀ place₀ data hole m place) (hc : place c=some p) :
    m.pmm.bitmap c=true := (h.sound.tables.inUse hc).1

theorem data_inUse (h : Grown m₀ place₀ data hole m place) (hq : q ∈ data) :
    m.pmm.bitmap q=true := (h.account q).mpr (Or.inr (Or.inr hq))

theorem data_ne_table (h : Grown m₀ place₀ data hole m place) (hq : q ∈ data)
    (hc : IsTable m place c l) : c≠q := by
  rintro rfl
  obtain ⟨-,hplace,hb⟩ := h.held hq
  rcases hc with ⟨hc,-⟩ | ⟨t,i,hc⟩
  · rw [hc,h.kernelRoot,h.base.tables.rootInUse] at hb
    cases hb
  · rw [hplace] at hc
    cases hc

theorem refl (h : SoundTables (m₀.kernelRoot/4096) m₀ place₀) :
    Grown m₀ place₀ ∅ (m₀.kernelRoot/4096) m₀ place₀ := by
  refine ⟨h,h,rfl,id,fun _ _ _ _ => rfl,?_,?_,?_,?_⟩
  · intro c p hc hno
    rw [hno] at hc
    cases hc
  · intro q l j hq _ hpres _
    exact ⟨hq,hpres⟩
  · intro p hp
    exact hp.elim
  · intro p
    have hnot : ¬ (place₀ p≠none ∧ place₀ p=none) := fun h => h.1 h.2
    simp [hnot]

theorem filled (h : Grown m₀ place₀ data (m₀.kernelRoot/4096) m place)
    (hc : place c=some p) : ∃ i<512, present (m.entry c i)=true := by
  refine h.sound.filled hc ?_
  rintro rfl
  rw [h.root_none] at hc
  cases hc

theorem weaken (h : Grown m₀ place₀ data (m₀.kernelRoot/4096) m place) (hole : Nat) :
    Grown m₀ place₀ data hole m place :=
  { h with sound := { h.sound with filled := fun hc _ => h.filled hc } }

theorem settle (h : Grown m₀ place₀ data hole m place)
    (hfull : ∃ j<512, present (m.entry hole j)=true) :
    Grown m₀ place₀ data (m₀.kernelRoot/4096) m place := by
  refine { h with sound := { h.sound with filled := ?_ } }
  intro c p hc _
  by_cases hne : c=hole
  · rw [hne]
    exact hfull
  · exact h.sound.filled hc hne

theorem entry_present (h : Grown m₀ place₀ data hole m place) {j : Nat}
    (hq : IsTable m₀ place₀ q l) (hj : j<512) (hupper : l=4 → 256≤j)
    (hpres : present (m₀.entry q j)=true) : present (m.entry q j)=true := by
  rw [h.entries hq hj hupper hpres]
  exact hpres

/-- Hanging a new empty table into the hole. -/
theorem link (h : Grown m₀ place₀ data q m place)
    (hq : IsTable m place q (l+1)) (hl : l≠0) (hl3 : l≤3) (hi : i<512)
    (hupper : l=3 → 256 ≤ i) (hc : m.pmm.bitmap c=false)
    (hfree : present (m.entry q i)=false) (hpres : present e=true) (hhuge : huge e=false)
    (hwritable : hasFlag e vmmWritable=true) (hpage : addressPage e=c) :
    Grown m₀ place₀ data c ((clearPage c { m with pmm := takePage c m.pmm }).setEntry q i e)
      (update place c (some ⟨l,q,i⟩)) := by
  have k := h.sound.tables
  have hqc : q≠c := Spares.ne hc (hq.inUse k)
  have hne {d : Nat} {p : Place} (hd : place d=some p) : d≠c :=
    Spares.ne hc (h.placed_inUse hd)
  have hkeep {d : Nat} (hd : d≠c) : update place c (some ⟨l,q,i⟩) d=place d :=
    update_of_ne hd _ _
  have hempty (j : Nat) :
      ((clearPage c { m with pmm := takePage c m.pmm }).setEntry q i e).entry c j=0 := by
    rw [setEntry_entry_of_ne _ e (Or.inl (Ne.symm hqc)),clearPage_entry]
  have hpresent {p j : Nat} (hp : p≠c) (hj : present (m.entry p j)=true) :
      ((clearPage c { m with pmm := takePage c m.pmm }).setEntry q i e).entry p j =
        m.entry p j := by
    refine linked_entry m e hp (not_and_or.mp ?_)
    rintro ⟨rfl,rfl⟩
    rw [hfree] at hj
    cases hj
  have htable {p l' : Nat} (hp : IsTable m place p l') : IsTable
      ((clearPage c { m with pmm := takePage c m.pmm }).setEntry q i e)
      (update place c (some ⟨l,q,i⟩)) p l' := by
    rcases hp with hp | ⟨t,j,hp⟩
    · exact Or.inl hp
    · exact Or.inr ⟨t,j,(hkeep (hne hp)).trans hp⟩
  refine ⟨h.base,⟨k.link hq hl3 hc hfree hpage,(h.sound.pmm.takePage hc).1,?_,?_⟩,
    h.kernelRoot,?_,?_,?_,?_,?_,?_⟩
  · intro d l' q' i' hd
    by_cases hdc : d=c
    · subst hdc
      rw [update_self] at hd
      cases hd
      refine ⟨htable hq,hl,hi,hupper,?_,?_⟩
      · rw [Leads,setEntry_entry_self]
        exact ⟨hpres,hhuge,hpage⟩
      · rw [setEntry_entry_self]
        exact hwritable
    rw [hkeep hdc] at hd
    obtain ⟨hq',hl',hi',hupper',hleads,hw⟩ := h.sound.parent hd
    have hsame := hpresent (Spares.ne hc (hq'.inUse k)) hleads.1
    refine ⟨htable hq',hl',hi',hupper',?_,?_⟩
    · rw [Leads,hsame]
      exact hleads
    · rw [hsame]
      exact hw
  · intro d p hd hdc
    rw [hkeep hdc] at hd
    by_cases hdq : d=q
    · subst hdq
      exact ⟨i,hi,by rw [setEntry_entry_self]; exact hpres⟩
    · obtain ⟨j,hj,hfull⟩ := h.sound.filled hd hdq
      exact ⟨j,hj,by rw [linked_entry m e hdc (Or.inl hdq)]; exact hfull⟩
  · intro d p hd
    rw [hkeep (hne (h.kept hd))]
    exact h.kept hd
  · intro p l' j hp hj hup hold
    rw [hpresent (Spares.ne hc ((h.isTable hp).inUse k)) (h.entry_present hp hj hup hold)]
    exact h.entries hp hj hup hold
  · intro d p hd hno
    by_cases hdc : d=c
    · subst hdc
      refine ⟨OwnPage.of_take h.sound.pmm hc,?_⟩
      by_contra hb
      rw [(h.account d).mpr (Or.inl (by simpa using hb))] at hc
      cases hc
    · rw [hkeep hdc] at hd
      obtain ⟨howned,hb⟩ := h.own hd hno
      exact ⟨howned.take hdc,hb⟩
  · intro d l' j hd hl' hj hbig
    by_cases hdc : d=c
    · rw [hdc,hempty,present_zero] at hj
      cases hj
    have hd' : IsTable m place d l' := by
      rcases hd with hd | ⟨t,i',hd⟩
      · exact Or.inl hd
      · exact Or.inr ⟨t,i',(hkeep hdc).symm.trans hd⟩
    by_cases hhere : d=q ∧ j=i
    · obtain ⟨rfl,rfl⟩ := hhere
      rw [setEntry_entry_self,hhuge] at hbig
      cases hbig
    · rw [linked_entry m e hdc (not_and_or.mp hhere)] at hj hbig
      exact h.small hd' hl' hj hbig
  · intro p hp
    obtain ⟨howned,hplace,hb⟩ := h.held hp
    have hpc : p≠c := Spares.ne hc (h.data_inUse hp)
    exact ⟨howned.take hpc,(hkeep hpc).trans hplace,hb⟩
  intro p
  show (takePage c m.pmm).bitmap p=true ↔ _
  rw [takePage_bitmap,h.account p]
  by_cases hpc : p=c
  · subst hpc
    have hno : place₀ p=none := by
      by_contra hp
      obtain ⟨pl,hpl⟩ := Option.ne_none_iff_exists'.mp hp
      exact hne (h.kept hpl) rfl
    simp [hno]
  · rw [hkeep hpc]
    simp [hpc]

/-- Taking an empty table that is not one of `m₀` out of its entry leaves the hole there. -/
theorem unlink (h : Grown m₀ place₀ data c m place) (hc : place c=some ⟨l,q,i⟩)
    (hno : place₀ c=none) (hempty : ∀ j<512, present (m.entry c j)=false) :
    Grown m₀ place₀ data q ((m.setEntry q i 0).freePage c) (update place c none) := by
  have k := h.sound.tables
  obtain ⟨hq,hl,hi,hupper,⟨hpres,hhuge,hpage⟩,hw⟩ := h.sound.parent hc
  obtain ⟨howned,hb₀⟩ := h.own hc hno
  have hb : m.pmm.bitmap c=true := h.placed_inUse hc
  have hkeep {d : Nat} (hd : d≠c) : update place c none d=place d :=
    update_of_ne hd _ _
  have hentry {p j : Nat} (hne : p≠q ∨ j≠i) :
      ((m.setEntry q i 0).freePage c).entry p j=m.entry p j :=
    setEntry_entry_of_ne _ _ hne
  have htable {p l' : Nat} (hp : IsTable m place p l') (hpc : p≠c) :
      IsTable ((m.setEntry q i 0).freePage c) (update place c none) p l' := by
    rcases hp with hp | ⟨t,j,hp⟩
    · exact Or.inl hp
    · exact Or.inr ⟨t,j,(hkeep hpc).trans hp⟩
  have hfree (p : Nat) : ((m.setEntry q i 0).freePage c).pmm.bitmap p=true ↔
      p≠c ∧ m.pmm.bitmap p=true := howned.free_bitmap hb p
  have hkeepOwn {p : Nat} (hp : OwnPage m.pmm p) (hpc : p≠c) :
      OwnPage ((m.setEntry q i 0).freePage c).pmm p := hp.free howned hb hpc
  have hplaced {d : Nat} {p : Place} (hd : update place c none d=some p) :
      d≠c ∧ place d=some p := by
    by_cases hdc : d=c
    · subst hdc
      rw [update_self] at hd
      cases hd
    · rw [hkeep hdc] at hd
      exact ⟨hdc,hd⟩
  refine ⟨h.base,⟨k.unlink hc,h.sound.pmm.freePage (k.address hc),?_,?_⟩,h.kernelRoot,
    ?_,?_,?_,?_,?_,?_⟩
  · intro d l' q' i' hd
    obtain ⟨hdc,hd⟩ := hplaced hd
    obtain ⟨hq',hl',hi',hupper',hleads,hw'⟩ := h.sound.parent hd
    have hqc : q'≠c := by
      rintro rfl
      have hfull := hleads.1
      rw [hempty i' hi'] at hfull
      cases hfull
    have hsame : ((m.setEntry q i 0).freePage c).entry q' i'=m.entry q' i' := by
      refine hentry (not_and_or.mp ?_)
      rintro ⟨rfl,rfl⟩
      exact hdc (hleads.2.2.symm.trans hpage)
    refine ⟨htable hq' hqc,hl',hi',hupper',?_,?_⟩
    · rw [Leads,hsame]
      exact hleads
    · rw [hsame]
      exact hw'
  · intro d p hd hdq
    obtain ⟨hdc,hd⟩ := hplaced hd
    obtain ⟨j,hj,hfull⟩ := h.sound.filled hd hdc
    exact ⟨j,hj,by rw [hentry (Or.inl hdq)]; exact hfull⟩
  · intro d p hd
    rw [hkeep]
    · exact h.kept hd
    · rintro rfl
      rw [hno] at hd
      cases hd
  · intro p l' j hp hj hup hold
    rw [← h.entries hp hj hup hold]
    refine hentry (not_and_or.mp ?_)
    rintro ⟨rfl,rfl⟩
    -- the entry would lead to `c` in `m₀` too
    have hlevel := (h.isTable hp).level_unique k hq
    subst hlevel
    have hsame := h.entries hp hj hup hold
    rw [hsame] at hhuge hpage
    have hchild := h.base.tables.child hp hl hj (fun h3 => hup (by omega)) hold hhuge
    rw [hpage,hno] at hchild
    cases hchild
  · intro d p hd hno'
    obtain ⟨hdc,hd⟩ := hplaced hd
    obtain ⟨hd',hb'⟩ := h.own hd hno'
    exact ⟨hkeepOwn hd' hdc,hb'⟩
  · intro d l' j hd hl' hj hbig
    have hd' : IsTable m place d l' := by
      rcases hd with hd | ⟨t,i',hd⟩
      · exact Or.inl hd
      · exact Or.inr ⟨t,i',(hplaced hd).2⟩
    by_cases hhere : d=q ∧ j=i
    · obtain ⟨rfl,rfl⟩ := hhere
      have hzero : ((m.setEntry d j 0).freePage c).entry d j=0 := setEntry_entry_self ..
      rw [hzero,present_zero] at hj
      cases hj
    · rw [hentry (not_and_or.mp hhere)] at hj hbig
      exact h.small hd' hl' hj hbig
  · intro p hp
    obtain ⟨hp',hplace,hb'⟩ := h.held hp
    have hpc : p≠c := by
      rintro rfl
      rw [hplace] at hc
      cases hc
    exact ⟨hkeepOwn hp' hpc,(hkeep hpc).trans hplace,hb'⟩
  intro p
  rw [hfree,h.account p]
  by_cases hpc : p=c
  · subst hpc
    have hdata : p ∉ data := by
      intro hp
      rw [(h.held hp).2.1] at hc
      cases hc
    simp [hb₀,hdata]
  · rw [hkeep hpc]
    simp [hpc]

/-- An entry of the last level that `m₀` does not have changes. -/
theorem setLeaf (h : Grown m₀ place₀ data hole m place) (ht : IsTable m place t 1)
    (hbase : IsTable m₀ place₀ t 1 → present (m₀.entry t i)=false) (e : BitVec 64)
    {hole' : Nat} (hfilled : ∀ {c p}, place c=some p → c≠hole' →
      ∃ j<512, present ((m.setEntry t i e).entry c j)=true) :
    Grown m₀ place₀ data hole' (m.setEntry t i e) place := by
  have k := h.sound.tables
  have hne {p l' : Nat} (hp : IsTable m place p l') (hl' : l'≠1) : p≠t := by
    rintro rfl
    exact hl' (hp.level_unique k ht)
  refine ⟨h.base,⟨k.setLeaf ht i e,h.sound.pmm,?_,hfilled⟩,h.kernelRoot,h.kept,?_,h.own,
    ?_,h.held,h.account⟩
  · intro c l q j hc
    obtain ⟨hq,hl,hj,hupper,hleads,hw⟩ := h.sound.parent hc
    have hsame : (m.setEntry t i e).entry q j=m.entry q j :=
      setEntry_entry_of_ne _ _ (Or.inl (hne hq (by omega)))
    refine ⟨hq,hl,hj,hupper,?_,?_⟩
    · rw [Leads,hsame]
      exact hleads
    · rw [hsame]
      exact hw
  · intro q l j hq hj hupper hpres
    rw [← h.entries hq hj hupper hpres]
    refine setEntry_entry_of_ne _ _ (not_and_or.mp ?_)
    rintro ⟨rfl,rfl⟩
    have hlevel := (h.isTable hq).level_unique k ht
    subst hlevel
    rw [hbase hq] at hpres
    cases hpres
  · intro q l j hq hl hpres hbig
    have hsame : (m.setEntry t i e).entry q j=m.entry q j :=
      setEntry_entry_of_ne _ _ (Or.inl (hne hq hl))
    rw [hsame] at hpres hbig
    exact h.small hq hl hpres hbig

theorem fillLeaf (h : Grown m₀ place₀ data t m place) (ht : IsTable m place t 1) (hi : i<512)
    (hfree : present (m.entry t i)=false) (hpres : present e=true) :
    Grown m₀ place₀ data (m₀.kernelRoot/4096) (m.setEntry t i e) place := by
  refine h.setLeaf ht ?_ e ?_
  · intro ht₀
    by_contra hold
    rw [h.entry_present ht₀ hi (by omega) (by simpa using hold)] at hfree
    cases hfree
  intro c p hc _
  by_cases hct : c=t
  · subst hct
    exact ⟨i,hi,by rw [setEntry_entry_self]; exact hpres⟩
  · obtain ⟨j,hj,hfull⟩ := h.sound.filled hc hct
    exact ⟨j,hj,by rw [setEntry_entry_of_ne _ _ (Or.inl hct)]; exact hfull⟩

theorem clearLeaf (h : Grown m₀ place₀ data (m₀.kernelRoot/4096) m place)
    (ht : IsTable m place t 1)
    (hbase : IsTable m₀ place₀ t 1 → present (m₀.entry t i)=false) :
    Grown m₀ place₀ data t (m.setEntry t i 0) place := by
  refine h.setLeaf ht hbase 0 ?_
  intro c p hc hct
  obtain ⟨j,hj,hfull⟩ := h.filled hc
  exact ⟨j,hj,by rw [setEntry_entry_of_ne _ _ (Or.inl hct)]; exact hfull⟩

theorem withPmm (h : Grown m₀ place₀ data hole m place) {pmm : Pmm} {data' : Set Nat}
    (inv : PmmInv pmm) (htable : ∀ {q l}, IsTable m place q l → pmm.bitmap q=true)
    (hown : ∀ {c p}, place c=some p → OwnPage m.pmm c → OwnPage pmm c)
    (hheld : ∀ {p}, p ∈ data' → OwnPage pmm p ∧ place p=none ∧ m₀.pmm.bitmap p=false)
    (haccount : ∀ p, pmm.bitmap p=true ↔
      m₀.pmm.bitmap p=true ∨ (place p≠none ∧ place₀ p=none) ∨ p ∈ data') :
    Grown m₀ place₀ data' hole { m with pmm := pmm } place := by
  refine ⟨h.base,⟨?_,inv,h.sound.parent,h.sound.filled⟩,h.kernelRoot,h.kept,h.entries,?_,
    h.small,hheld,haccount⟩
  · exact h.sound.tables.congr rfl (fun q l hq => ⟨rfl,htable hq⟩)
  · intro c p hc hno
    obtain ⟨howned,hb⟩ := h.own hc hno
    exact ⟨hown hc howned,hb⟩

theorem take (h : Grown m₀ place₀ data hole m place) {p : Nat} (hp : m.pmm.bitmap p=false) :
    Grown m₀ place₀ (insert p data) hole { m with pmm := takePage p m.pmm } place := by
  have hnot : ¬ (m₀.pmm.bitmap p=true ∨ (place p≠none ∧ place₀ p=none) ∨ p ∈ data) := by
    rw [← h.account p,hp]
    simp
  have hplace : place p=none := by
    by_contra hsome
    obtain ⟨pl,hpl⟩ := Option.ne_none_iff_exists'.mp hsome
    rw [h.placed_inUse hpl] at hp
    cases hp
  refine h.withPmm (h.sound.pmm.takePage hp).1 ?_ ?_ ?_ ?_
  · intro q l hq
    exact (takePage_bitmap m.pmm p q).mpr (Or.inr (hq.inUse h.sound.tables))
  · intro c pl hc howned
    exact howned.take (Spares.ne hp (h.placed_inUse hc))
  · intro q hq
    rcases hq with rfl | hq
    · refine ⟨OwnPage.of_take h.sound.pmm hp,hplace,?_⟩
      by_contra hb
      exact hnot (Or.inl (by simpa using hb))
    · obtain ⟨howned,hq',hb⟩ := h.held hq
      exact ⟨howned.take (Spares.ne hp (h.data_inUse hq)),hq',hb⟩
  · intro q
    rw [takePage_bitmap,h.account q,Set.mem_insert_iff]
    tauto

theorem give (h : Grown m₀ place₀ data hole m place) {p : Nat} (hp : p ∈ data) :
    Grown m₀ place₀ (data \ {p}) hole (m.freePage p) place := by
  obtain ⟨howned,hplace,hb₀⟩ := h.held hp
  have hb := h.data_inUse hp
  refine h.withPmm (h.sound.pmm.freePage (managed_lt howned.managed)) ?_ ?_ ?_ ?_
  · intro q l hq
    exact (howned.free_bitmap hb q).mpr ⟨h.data_ne_table hp hq,hq.inUse h.sound.tables⟩
  · intro c pl hc hc'
    refine hc'.free howned hb ?_
    rintro rfl
    rw [hplace] at hc
    cases hc
  · intro q hq
    obtain ⟨hq',hqplace,hqb⟩ := h.held hq.1
    exact ⟨hq'.free howned hb hq.2,hqplace,hqb⟩
  intro q
  have hfree : (m.freePage p).pmm.bitmap q=true ↔ q≠p ∧ m.pmm.bitmap q=true :=
    howned.free_bitmap hb q
  refine hfree.trans ?_
  rw [h.account q]
  by_cases hq : q=p
  · subst hq
    simp [hb₀,hplace]
  · simp [hq]

end Grown

/-- The same pages are in use, and their entries lead where they led. -/
structure Undone (m m' : Machine) : Prop where
  pmm : PmmInv m'.pmm
  bitmap : ∀ p, m'.pmm.bitmap p=m.pmm.bitmap p
  own : ∀ {p}, m.pmm.bitmap p=true → OwnPage m.pmm p → OwnPage m'.pmm p
  kernelRoot : m'.kernelRoot=m.kernelRoot
  entries : ∀ {q}, m.pmm.bitmap q=true → ∀ j, Agree (m'.entry q j) (m.entry q j)

section Undoing

variable {m₀ m m' : Machine} {place₀ place : Nat → Option Place} {data : Set Nat}
  {hole address : Nat}

theorem Undone.refl (inv : PmmInv m.pmm) : Undone m m :=
  ⟨inv,fun _ => rfl,fun _ h => h,rfl,fun _ _ => Agree.refl _⟩

/-- A table that was created goes again. -/
theorem Undone.unlink (inv : PmmInv m.pmm) {table i c : Nat} {e : BitVec 64}
    (hc : m.pmm.bitmap c=false) (htable : m.pmm.bitmap table=true)
    (hfree : present (m.entry table i)=false)
    (h : Undone ((clearPage c { m with pmm := takePage c m.pmm }).setEntry table i e) m') :
    Undone m ((m'.setEntry table i 0).freePage c) := by
  have htaken (p : Nat) : m'.pmm.bitmap p=(takePage c m.pmm).bitmap p := h.bitmap p
  have hcb : m'.pmm.bitmap c=true := by
    rw [htaken,takePage_bitmap]
    exact Or.inl rfl
  have hcOwn : OwnPage m'.pmm c := by
    refine h.own ?_ (OwnPage.of_take inv hc)
    show (takePage c m.pmm).bitmap c=true
    rw [takePage_bitmap]
    exact Or.inl rfl
  have hused {p : Nat} (hp : m.pmm.bitmap p=true) : (takePage c m.pmm).bitmap p=true :=
    (takePage_bitmap m.pmm c p).mpr (Or.inr hp)
  refine ⟨h.pmm.freePage (inv.free_lt hc),?_,?_,h.kernelRoot,?_⟩
  · intro p
    rw [Bool.eq_iff_iff]
    have hbit : ((m'.setEntry table i 0).freePage c).pmm.bitmap p=true ↔
        p≠c ∧ m'.pmm.bitmap p=true := hcOwn.free_bitmap hcb p
    rw [hbit,htaken,takePage_bitmap]
    constructor
    · rintro ⟨hne,rfl | hp⟩
      · exact absurd rfl hne
      · exact hp
    · intro hp
      exact ⟨Spares.ne hc hp,Or.inr hp⟩
  · intro p hp howned
    have hpc : p≠c := Spares.ne hc hp
    exact (h.own (hused hp) (howned.take hpc)).free hcOwn hcb hpc
  intro q hq j
  have hqc : q≠c := Spares.ne hc hq
  show Agree ((m'.setEntry table i 0).entry q j) (m.entry q j)
  by_cases hhere : q=table ∧ j=i
  · obtain ⟨rfl,rfl⟩ := hhere
    rw [setEntry_entry_self]
    exact Or.inr ⟨present_zero,hfree⟩
  rw [setEntry_entry_of_ne _ _ (not_and_or.mp hhere)]
  have hagree := h.entries (hused hq) j
  rw [linked_entry m e hqc (not_and_or.mp hhere)] at hagree
  exact hagree

theorem Grown.restore (h : Grown m₀ place₀ data hole m place) (r : Undone m m') :
    Grown m₀ place₀ data hole m' place := by
  have k := h.sound.tables
  have htable {q l : Nat} (hq : IsTable m' place q l) : IsTable m place q l := by
    rcases hq with ⟨rfl,rfl⟩ | hq
    · exact Or.inl ⟨by rw [r.kernelRoot],rfl⟩
    · exact Or.inr hq
  have htable' {q l : Nat} (hq : IsTable m place q l) : IsTable m' place q l := by
    rcases hq with ⟨rfl,rfl⟩ | hq
    · exact Or.inl ⟨by rw [r.kernelRoot],rfl⟩
    · exact Or.inr hq
  have hforth {q l j : Nat} (hq : IsTable m place q l) (hj : present (m.entry q j)=true) :
      m'.entry q j=m.entry q j := by
    rcases r.entries (hq.inUse k) j with heq | ⟨-,hno⟩
    · exact heq
    · rw [hno] at hj
      cases hj
  have hback {q l j : Nat} (hq : IsTable m place q l) (hj : present (m'.entry q j)=true) :
      m'.entry q j=m.entry q j := by
    rcases r.entries (hq.inUse k) j with heq | ⟨hno,-⟩
    · exact heq
    · rw [hno] at hj
      cases hj
  refine ⟨h.base,⟨⟨?_,?_,?_,k.address,?_⟩,r.pmm,?_,?_⟩,r.kernelRoot.trans h.kernelRoot,
    h.kept,?_,?_,?_,?_,?_⟩
  · rw [r.kernelRoot]
    exact k.root
  · rw [r.kernelRoot,r.bitmap]
    exact k.rootInUse
  · intro c p hc
    rw [r.bitmap]
    exact k.inUse hc
  · intro q l i hq hl hi hupper hpres hhuge
    have hsame := hback (htable hq) hpres
    rw [hsame] at hpres hhuge ⊢
    exact k.child (htable hq) hl hi hupper hpres hhuge
  · intro c l q i hc
    obtain ⟨hq,hl,hi,hupper,hleads,hw⟩ := h.sound.parent hc
    have hsame := hforth hq hleads.1
    refine ⟨htable' hq,hl,hi,hupper,?_,?_⟩
    · rw [Leads,hsame]
      exact hleads
    · rw [hsame]
      exact hw
  · intro c p hc hne
    obtain ⟨j,hj,hfull⟩ := h.sound.filled hc hne
    exact ⟨j,hj,by rw [hforth (Or.inr ⟨_,_,hc⟩) hfull]; exact hfull⟩
  · intro q l j hq hj hupper hpres
    rw [hforth (h.isTable hq) (h.entry_present hq hj hupper hpres)]
    exact h.entries hq hj hupper hpres
  · intro c p hc hno
    obtain ⟨howned,hb⟩ := h.own hc hno
    exact ⟨r.own (h.placed_inUse hc) howned,hb⟩
  · intro q l j hq hl hpres hbig
    have hsame := hback (htable hq) hpres
    rw [hsame] at hpres hbig
    exact h.small (htable hq) hl hpres hbig
  · intro p hp
    obtain ⟨howned,hplace,hb⟩ := h.held hp
    exact ⟨r.own (h.data_inUse hp) howned,hplace,hb⟩
  · intro p
    rw [r.bitmap]
    exact h.account p

theorem Undone.kernelQuery (k : KernelTables m place) (r : Undone m m')
    (haddr : 0xFFFF800000000000≤address) :
    Memory.kernelQuery address m'=Memory.kernelQuery address m :=
  kernelQuery_congr k r.kernelRoot haddr
    (fun _ _ j hq _ => Or.inl (r.entries (hq.inUse k) j))

theorem rollback_append (created rest : List (Nat × Nat × Nat)) (m : Machine) :
    rollback (created ++ rest) m=rollback rest (rollback created m) := by
  induction created generalizing m with
  | nil => rfl
  | cons x created ih =>
    obtain ⟨table,i,page⟩ := x
    exact ih _

/-- Taking the created tables out again restores the machine. -/
theorem descendCreating_undone (flags : BitVec 64) (is : List Nat) (table : Nat)
    (created : List (Nat × Nat × Nat)) (inv : PmmInv m.pmm) (k : KernelTables m place)
    (path : UpperPath is) (htable : IsTable m place table (is.length+1)) :
    ∃ new, (descendCreating flags is table created m).2.1=new ++ created ∧
      Undone m (rollback new (descendCreating flags is table created m).2.2) := by
  induction is generalizing table created m place with
  | nil => exact ⟨[],rfl,Undone.refl inv⟩
  | cons i is ih =>
    rw [List.length_cons] at htable
    rw [descendCreating]
    by_cases hpres : present (m.entry table i)=true
    · simp only [hpres,Bool.not_true,Bool.false_eq_true,if_false]
      by_cases hhuge : huge (m.entry table i)=true
      · simp only [hhuge,if_true]
        exact ⟨[],rfl,Undone.refl inv⟩
      · simp only [hhuge,Bool.false_eq_true,if_false]
        have hchild := path.child k htable hpres (by simpa using hhuge)
        exact ih _ _ inv k path.tail (Or.inr ⟨_,_,hchild⟩)
    have hfree : present (m.entry table i)=false := by simpa using hpres
    simp only [hfree,Bool.not_false,if_true,createTable,allocPage]
    rcases alloc_cases 0 inv with hnone | ⟨c,hc,hc40,hsome⟩
    · rw [hnone]
      exact ⟨[],rfl,Undone.refl inv⟩
    rw [hsome]
    simp only [setEntry_entry_self,newTable_page hc40]
    obtain ⟨new,hnew,hback⟩ := ih c ((table,i,c) :: created) (inv.takePage hc).1
      (k.link htable path.length hc hfree (newTable_page hc40 flags)) path.tail
      (Or.inr ⟨table,i,update_self ..⟩)
    refine ⟨new ++ [(table,i,c)],by rw [hnew]; simp,?_⟩
    rw [rollback_append]
    exact Undone.unlink inv hc (htable.inUse k) hfree hback

end Undoing

/-- A map has come down to the table `t` of a page: the way to it is there, and nothing is
mapped that was not. -/
structure Descended (m₀ : Machine) (place₀ : Nat → Option Place) (data : Set Nat) (m : Machine)
    (place : Nat → Option Place) (is : List Nat) (table t : Nat) (m' : Machine)
    (place' : Nat → Option Place) : Prop where
  grown : Grown m₀ place₀ data t m' place'
  leaf : IsTable m' place' t 1
  walk : ∃ found, walkTables m' is table=some found ∧ (table :: found).getLast? = some t
  entries : ∀ {q l j}, IsTable m place q l → present (m.entry q j)=true →
    m'.entry q j=m.entry q j
  view : ∀ address, 0xFFFF800000000000≤address → kernelQuery address m'=kernelQuery address m

section Mapping

variable {m₀ m m' : Machine} {place₀ place : Nat → Option Place} {data : Set Nat}
  {address page : Nat} {t : Nat} {place' : Nat → Option Place}

theorem newTable_flags {page : Nat} (hp : page<2 ^ 40) (flags : BitVec 64) :
    let e := tableEntry page (vmmPresent ||| vmmWritable ||| (flags &&& vmmUser))
    present e=true ∧ huge e=false ∧ hasFlag e vmmWritable=true := by
  have hbit (k : Nat) : (vmmPresent ||| vmmWritable ||| (flags &&& vmmUser)).getLsbD k =
      (decide (k=0) || decide (k=1) || (flags.getLsbD k && decide (k=2))) := by
    simp only [BitVec.getLsbD_or,BitVec.getLsbD_and,vmmPresent_bit,vmmWritable_bit,vmmUser_bit]
  refine ⟨?_,?_,?_⟩
  · rw [present_bit,tableEntry_bit _ hp (by omega),hbit]
    simp
  · rw [huge_bit,tableEntry_bit _ hp (by omega),hbit]
    simp
  · rw [writable_bit,tableEntry_bit _ hp (by omega),hbit]
    simp

theorem Descended.step {is : List Nat} {table i c : Nat}
    (h : Descended m₀ place₀ data m place is c t m' place') (htable : IsTable m place table (i+1))
    {j : Nat} (hleads : Leads m table j c) :
    ∃ found, walkTables m' (j :: is) table=some found ∧ (table :: found).getLast? = some t := by
  obtain ⟨found,hfound,hlast⟩ := h.walk
  have hsame := h.entries htable hleads.1
  refine ⟨c :: found,?_,?_⟩
  · rw [walkTables_down (by rw [hsame]; exact hleads.1) (by rw [hsame]; exact hleads.2.1),hsame,
      hleads.2.2,hfound]
    rfl
  · rw [List.getLast?_cons_cons]
    exact hlast

theorem descendCreating_grown (flags : BitVec 64) (is : List Nat) (table : Nat)
    (created : List (Nat × Nat × Nat)) (h : Grown m₀ place₀ data table m place)
    (path : UpperPath is) (htable : IsTable m place table (is.length+1))
    (hfound : (descendCreating flags is table created m).1=some t) :
    ∃ place', Descended m₀ place₀ data m place is table t
      (descendCreating flags is table created m).2.2 place' := by
  induction is generalizing table created m place with
  | nil =>
    cases hfound
    exact ⟨place,h,htable,⟨[],rfl,rfl⟩,fun _ _ => rfl,fun _ _ => rfl⟩
  | cons i is ih =>
    rw [List.length_cons] at htable
    have k := h.sound.tables
    rw [descendCreating] at hfound ⊢
    by_cases hpres : present (m.entry table i)=true
    · simp only [hpres,Bool.not_true,Bool.false_eq_true,if_false] at hfound ⊢
      by_cases hhuge : huge (m.entry table i)=true
      · simp [hhuge] at hfound
      simp only [hhuge,Bool.false_eq_true,if_false] at hfound ⊢
      have hhuge' : huge (m.entry table i)=false := by simpa using hhuge
      have hchild := path.child k htable hpres hhuge'
      have h' := (h.settle ⟨i,path.head_lt,hpres⟩).weaken (addressPage (m.entry table i))
      obtain ⟨place',hd⟩ := ih _ _ h' path.tail (Or.inr ⟨_,_,hchild⟩) hfound
      exact ⟨place',hd.grown,hd.leaf,hd.step htable ⟨hpres,hhuge',rfl⟩,hd.entries,hd.view⟩
    have hfree : present (m.entry table i)=false := by simpa using hpres
    simp only [hfree,Bool.not_false,if_true,createTable,allocPage] at hfound ⊢
    rcases alloc_cases 0 h.sound.pmm with hnone | ⟨c,hc,hc40,hsome⟩
    · simp [hnone] at hfound
    rw [hsome] at hfound ⊢
    simp only [setEntry_entry_self,newTable_page hc40] at hfound ⊢
    obtain ⟨hnew,hsmall,hwritable⟩ := newTable_flags hc40 flags
    have hpage := newTable_page hc40 flags
    have h' := h.link htable (by omega) path.length path.head_lt path.head_upper hc hfree hnew
      hsmall hwritable hpage
    obtain ⟨place',hd⟩ := ih c ((table,i,c) :: created) h' path.tail
      (Or.inr ⟨table,i,update_self ..⟩) hfound
    have hplaced {q l : Nat} (hq : IsTable m place q l) : IsTable
        ((clearPage c { m with pmm := takePage c m.pmm }).setEntry table i
          (tableEntry c (vmmPresent ||| vmmWritable ||| (flags &&& vmmUser))))
        (update place c (some ⟨is.length+1,table,i⟩)) q l := by
      rcases hq with hq | ⟨t,j,hq⟩
      · exact Or.inl hq
      · refine Or.inr ⟨t,j,?_⟩
        rw [update_of_ne (Spares.ne hc (h.placed_inUse hq))]
        exact hq
    refine ⟨place',hd.grown,hd.leaf,hd.step (hplaced htable) ?_,?_,?_⟩
    · rw [Leads,setEntry_entry_self]
      exact ⟨hnew,hsmall,hpage⟩
    · intro q l j hq hj
      have hsame := linked_entry m
        (tableEntry c (vmmPresent ||| vmmWritable ||| (flags &&& vmmUser)))
        (Spares.ne hc (hq.inUse k)) (show q≠table ∨ j≠i by
          rw [← not_and_or]
          rintro ⟨rfl,rfl⟩
          rw [hfree] at hj
          cases hj)
      rw [hd.entries (hplaced hq) (by rw [hsame]; exact hj),hsame]
    · intro address haddr
      rw [hd.view address haddr]
      exact kernelQuery_link k htable (by omega) hc hfree hpage hsmall haddr

/-- A page that can be written and not executed is where nothing was, the rest is as it was. -/
structure MapsPage (address page : Nat) (m m' : Machine) : Prop where
  page : ∀ b, b/4096=address/4096 →
    kernelQuery b m'=some (page*4096+b%4096,vmmPresent ||| stackFlags)
  other : ∀ b, 0xFFFF800000000000≤b → b/4096≠address/4096 →
    kernelQuery b m'=kernelQuery b m

theorem Grown.stackPage {hole t1 t2 t3 : Nat} (h : Grown m₀ place₀ data hole m place)
    (haddr : 0xFFFF800000000000≤address) (hc : addressIsCanonical address=true)
    (hwalk : walkTables m (tableIndices address) (m.kernelRoot/4096)=some [t1,t2,t3])
    (hpage : page<2 ^ 40)
    (hleaf : m.entry t3 (leafIndex address) =
      tableEntry page (vmmPresent ||| (stackFlags &&& leafFlags))) :
    kernelQuery address m=some (page*4096+address%4096,vmmPresent ||| stackFlags) := by
  obtain ⟨h3,-,-,h2,-,-,h1,-⟩ :=
    walkTables_chain h.sound.tables (rootIndex_upper haddr hc) hwalk
  obtain ⟨-,-,-,-,-,hw3⟩ := h.sound.parent h3
  obtain ⟨-,-,-,-,-,hw2⟩ := h.sound.parent h2
  obtain ⟨-,-,-,-,-,hw1⟩ := h.sound.parent h1
  exact kernelQuery_stackPage hc hwalk hw1 hw2 hw3 hpage hleaf

/-- Mapping a page where none is, below the table that was found. -/
theorem Descended.map
    (h : Descended m₀ place₀ data m place (tableIndices address) (m.kernelRoot/4096) t m' place')
    (hroot : m'.kernelRoot=m.kernelRoot) (haddr : 0xFFFF800000000000≤address)
    (hc : addressIsCanonical address=true) (hpage : page<2 ^ 40)
    (hfree : present (m'.entry t (leafIndex address))=false) :
    kernelQuery address m=none ∧
      Grown m₀ place₀ data (m₀.kernelRoot/4096) (m'.setEntry t (leafIndex address)
        (tableEntry page (vmmPresent ||| (stackFlags &&& leafFlags)))) place' ∧
      MapsPage address page m (m'.setEntry t (leafIndex address)
        (tableEntry page (vmmPresent ||| (stackFlags &&& leafFlags)))) := by
  have k := h.grown.sound.tables
  obtain ⟨found,hfound,hlast⟩ := h.walk
  obtain ⟨t1,t2,t3,rfl⟩ := walkTables_found hfound
  simp only [List.getLast?_cons_cons,List.getLast?_singleton,Option.some.injEq] at hlast
  subst hlast
  rw [← hroot] at hfound
  have hgrown := h.grown.fillLeaf h.leaf (leafIndex_lt address) hfree
    (newLeaf_entry stackFlags hpage).1.present
  refine ⟨?_,hgrown,?_,?_⟩
  · rw [← h.view address haddr]
    exact (kernelQuery_none_iff hc hfound).mpr hfree
  · intro b hb
    obtain ⟨hindices,hleaf⟩ := samePage_indices hb
    have hcb : addressIsCanonical b=true := (samePage_canonical hb).trans hc
    have hb' : 0xFFFF800000000000≤b := by omega
    have hwalk := walkTables_setLeaf k h.leaf (leafIndex address)
      (tableEntry page (vmmPresent ||| (stackFlags &&& leafFlags))) (rootIndex_upper haddr hc)
      hfound
    rw [← hindices] at hwalk
    refine hgrown.stackPage hb' hcb hwalk hpage ?_
    rw [hleaf,setEntry_entry_self]
  · intro b hb hne
    rw [kernelQuery_setLeaf k _ haddr hc hfound hb hne]
    exact h.view b hb

/-- A map fails and leaves everything as it was, or maps the page. -/
theorem vmmMapPage_grown (h : Grown m₀ place₀ data (m₀.kernelRoot/4096) m place)
    (haddr : 0xFFFF800000000000≤address) (hpage : page<2 ^ 40) :
    (∃ m', vmmMapPage address (page*4096) stackFlags m=(false,m') ∧ Undone m m') ∨
      ∃ m' place', vmmMapPage address (page*4096) stackFlags m=(true,m') ∧
        kernelQuery address m=none ∧
        Grown m₀ place₀ data (m₀.kernelRoot/4096) m' place' ∧ MapsPage address page m m' := by
  rw [vmmMapPage,mapPageLocked]
  by_cases hvalid : mapArgumentsValid ⟨m.kernelRoot,true⟩ address (page*4096) stackFlags=true
  · have hc : addressIsCanonical address=true := by
      simp only [mapArgumentsValid,Bool.not_eq_true',Bool.or_eq_false_iff] at hvalid
      simpa using hvalid.1.1.1.1.1
    have huser : hasFlag stackFlags vmmUser=false := by decide
    have hdiv : page*4096/4096=page := Nat.mul_div_cancel _ (by omega)
    have path := upperPath_tableIndices haddr hc
    have htable : IsTable m place (m.kernelRoot/4096) ((tableIndices address).length+1) :=
      Or.inl ⟨rfl,rfl⟩
    obtain ⟨new,hnew,hundone⟩ := descendCreating_undone stackFlags (tableIndices address)
      (m.kernelRoot/4096) [] h.sound.pmm h.sound.tables path htable
    rw [List.append_nil] at hnew
    have hdown {t : Nat} := descendCreating_grown stackFlags (tableIndices address)
      (m.kernelRoot/4096) [] (h.weaken _) path htable (t := t)
    simp only [hvalid,Bool.not_true,Bool.false_eq_true,if_false,hdiv,huser]
    rw [← hnew] at hundone
    revert hundone hdown
    rcases descendCreating stackFlags (tableIndices address) (m.kernelRoot/4096) [] m with
      ⟨found,created,m₁⟩
    intro hundone hdown
    cases found with
    | none => exact Or.inl ⟨_,rfl,hundone⟩
    | some t =>
      dsimp only at hundone hdown ⊢
      by_cases htaken : present (m₁.entry t (leafIndex address))=true
      · rw [if_pos htaken]
        exact Or.inl ⟨_,rfl,hundone⟩
      rw [if_neg htaken]
      obtain ⟨place',hd⟩ := hdown rfl
      have hroot : m₁.kernelRoot=m.kernelRoot :=
        hd.grown.kernelRoot.trans h.kernelRoot.symm
      exact Or.inr ⟨_,place',rfl,hd.map hroot haddr hc hpage (by simpa using htaken)⟩
  · simp only [hvalid,Bool.not_false,if_true]
    exact Or.inl ⟨m,rfl,Undone.refl h.sound.pmm⟩

end Mapping

end ConeOS.Memory
