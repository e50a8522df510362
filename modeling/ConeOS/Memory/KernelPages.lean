import ConeOS.Memory.Walk

namespace ConeOS.Memory

open ConeOS.Library Machine Function

/-- Between operations the kernel holds nothing but its own pages, each once. -/
def kernelHeld (m : Machine) (p : Nat) : Nat := if m.kernelPages p then 1 else 0

/-- What the rest of the kernel leaves alone. -/
structure KernelKeeps (m m' : Machine) : Prop where
  page : ∀ {q}, managed m.pmm q=true → m.pmm.bitmap q=true → m.kernelPages q=false →
    m'.mem q=m.mem q ∧ m'.pmm.bitmap q=true ∧ m'.kernelPages q=false
  kernelRoot : m'.kernelRoot=m.kernelRoot
  map : SameMap m.pmm m'.pmm

theorem KernelKeeps.refl (m : Machine) : KernelKeeps m m :=
  ⟨fun _ hb hk => ⟨rfl,hb,hk⟩,rfl,SameMap.refl _⟩

theorem KernelKeeps.trans {m m' m'' : Machine} (h : KernelKeeps m m') (h' : KernelKeeps m' m'') :
    KernelKeeps m m'' := by
  refine ⟨?_,h'.kernelRoot.trans h.kernelRoot,h.map.trans h'.map⟩
  intro q hm hb hk
  obtain ⟨hmem,hb',hk'⟩ := h.page hm hb hk
  obtain ⟨hmem',hrest⟩ := h'.page (by rw [h.map.managed]; exact hm) hb' hk'
  exact ⟨hmem'.trans hmem,hrest⟩

namespace MemInv

variable {m : Machine} {roots : Finset Nat} {label : Nat → Option Label} {held : Nat → Nat}

theorem withKernelPages (inv : MemInv m roots label held) {pages : Nat → Bool}
    (h : ∀ p, pages p=true → 0<held p ∧ mappings m roots p=0) :
    MemInv { m with kernelPages := pages } roots label held := by
  have hmap (p : Nat) : mappings { m with kernelPages := pages } roots p=mappings m roots p :=
    mappings_congr (fun r _ vpn _ => leafAt_mem rfl r vpn) p
  refine ⟨inv.forest.congr (fun _ _ => rfl) (fun _ => rfl),inv.pmm,?_,?_,inv.foreign,
    inv.kernelRoot,inv.kernelLower,?_⟩
  · intro p hp
    rw [total,hmap]
    exact inv.counted hp
  · intro p hp
    rw [hmap]
    exact inv.table hp
  · intro p hp
    rw [hmap]
    exact h p hp

/-- The kernel changes the upper half of its root only. -/
theorem linkKernel (inv : MemInv m roots label held) {index : Nat} (hi : 256 ≤ index)
    (e : BitVec 64) : MemInv (m.setEntry (m.kernelRoot/4096) index e) roots label held := by
  have hmem (q : Nat) (hq : label q≠none) :
      (m.setEntry (m.kernelRoot/4096) index e).mem q=m.mem q :=
    setEntry_mem_of_ne _ _ _ (Ne.symm (inv.label_ne_kernelRoot hq))
  have f' := inv.forest.congr hmem (fun _ => rfl)
  have hmap (p : Nat) : mappings (m.setEntry (m.kernelRoot/4096) index e) roots p =
      mappings m roots p := by
    apply mappings_congr
    intro r hr vpn hv
    apply inv.forest.leafAt_congr f' hr hr hv (fun _ => Iff.rfl)
    intro q hq
    rw [entry,entry,hmem q (by simp [hq])]
  refine ⟨f',inv.pmm,?_,?_,inv.foreign,inv.kernelRoot,?_,?_⟩
  · intro p hp
    rw [total,hmap]
    exact inv.counted hp
  · intro p hp
    rw [hmap]
    exact inv.table hp
  · intro i hlt
    show present ((m.setEntry (m.kernelRoot/4096) index e).entry (m.kernelRoot/4096) i)=false
    rw [setEntry_entry_of_ne _ _ (Or.inr (by omega))]
    exact inv.kernelLower hlt
  · intro p hp
    rw [hmap]
    exact inv.kernelHeld hp

end MemInv

namespace Twin

variable {g : Ghost} {m n : Machine}

theorem withKernelPages (t : Twin g m n) (pages : Nat → Bool) (dirty : Nat → Prop)
    (h : ∀ p, pages p=true → 0<g.held p ∧ mappings m g.roots p=0)
    (hd : ∀ q, pages q=false → ¬ dirty q → ¬ g.dirty q ∧ m.kernelPages q=false) :
    Twin { g with dirty := dirty } { m with kernelPages := pages }
      { n with kernelPages := pages } := by
  refine ⟨t.inv.withKernelPages h,t.pmm,t.kernelRoot,rfl,?_,t.mem_label,t.mem_kernelRoot,t.tail⟩
  intro q hb hq hk
  obtain ⟨hd',hk'⟩ := hd q hk hq
  exact t.mem hb hd' hk'

variable (t : Twin { g with held := kernelHeld m } m n)
include t

theorem takeStep :
    Twin { g with held := kernelHeld (KernelStep.run m .take) } (KernelStep.run m .take)
        (KernelStep.run n .take) ∧ SameLeaves g.roots m (KernelStep.run m .take) ∧
      KernelKeeps m (KernelStep.run m .take) := by
  simp only [KernelStep.run,allocPage]
  rcases t.alloc 0 with ⟨hm,hn⟩ | ⟨p,hfree,-,hm,hn,ta⟩
  · rw [hm,hn]
    exact ⟨t,SameLeaves.refl _ _,KernelKeeps.refl _⟩
  rw [hm,hn]
  obtain ⟨hpm,hpl,hpmap,hpheld,hpk⟩ := t.inv.free_page hfree
  have hpages : (n.take p).kernelPages=(m.take p).kernelPages := t.kernelPages
  have hheld : update (kernelHeld m) p 1 =
      kernelHeld { m.take p with
        kernelPages := update (m.take p).kernelPages p true } := by
    funext q
    by_cases h : q=p
    · subst h
      simp [kernelHeld]
    · rw [update_of_ne h]
      simp only [kernelHeld,update_of_ne h]
      rfl
  have hmap : mappings (m.take p) g.roots p=0 :=
    (mappings_congr (fun r _ vpn _ => leafAt_mem rfl r vpn) p).trans hpmap
  have tb := ta.withKernelPages (update (m.take p).kernelPages p true) g.dirty ?_ ?_
  · simp only [hheld] at tb
    simp only [hpages]
    refine ⟨tb,fun _ _ => leafAt_mem rfl _ _,?_,rfl,(t.keeps_take 0 hfree).map⟩
    intro q _ hb hk
    have hqp : q≠p := by
      rintro rfl
      rw [hfree] at hb
      cases hb
    refine ⟨rfl,?_,?_⟩
    · show update m.pmm.bitmap p true q=true
      rw [update_of_ne hqp]
      exact hb
    · show update m.kernelPages p true q=false
      rw [update_of_ne hqp]
      exact hk
  · intro q hq
    by_cases h : q=p
    · rw [h]
      exact ⟨by simp,hmap⟩
    · rw [update_of_ne h] at hq
      exact ta.inv.kernelHeld hq
  intro q hq hclean
  have hqp : q≠p := by
    rintro rfl
    rw [update_self] at hq
    cases hq
  rw [update_of_ne hqp] at hq
  exact ⟨fun h => hclean (h.resolve_left hqp),hq⟩

theorem giveStep (p : Nat) :
    Twin { g with held := kernelHeld (KernelStep.run m (.give p)) } (KernelStep.run m (.give p))
        (KernelStep.run n (.give p)) ∧ SameLeaves g.roots m (KernelStep.run m (.give p)) ∧
      KernelKeeps m (KernelStep.run m (.give p)) := by
  simp only [KernelStep.run,t.kernelPages]
  cases hk : m.kernelPages p with
  | false => exact ⟨t,SameLeaves.refl _ _,KernelKeeps.refl _⟩
  | true =>
    simp only [if_true]
    obtain ⟨hpos,hmapped⟩ := t.inv.kernelHeld hk
    have hm := t.inv.managed_of_held hpos
    have hb := t.inv.bitmap_of_held hm hpos
    have hlabel : g.label p=none := by
      by_contra h
      have h0 := (t.inv.table h).2.2
      have hpos : 0<kernelHeld m p := hpos
      have h0 : kernelHeld m p=0 := h0
      omega
    have hone : kernelHeld m p=1 := if_pos hk
    have ta := t.withKernelPages (update m.kernelPages p false)
      (fun q => q=p ∨ g.dirty q) ?_ ?_
    · have tb := ta.freePage hpos (by simp)
      have hgone : ({ m with kernelPages := update m.kernelPages p false } :
          Machine).freePage p = { m.freePage p with
            kernelPages := update m.kernelPages p false } := rfl
      obtain ⟨-,hother,-,hbit,hsame⟩ := pmmFreePage_eq hm hb
      have hfree : (dropReference p m.pmm).bitmap p=false := by
        have hcount := (t.inv.counted hm).1
        have htag : tag g.label p=0 := if_pos hlabel
        rw [total,htag,hmapped] at hcount
        have hrefs : m.pmm.pageReferences p=1 := by
          rw [hcount]
          show 0+0+kernelHeld m p=1
          omega
        rw [hrefs] at hbit
        simpa using hbit
      have hheld : update (kernelHeld m) p (kernelHeld m p-1) =
          kernelHeld { m.freePage p with
            kernelPages := update m.kernelPages p false } := by
        funext q
        by_cases h : q=p
        · subst h
          simp [kernelHeld,hk]
        · rw [update_of_ne h]
          simp only [kernelHeld,update_of_ne h]
      simp only [hheld] at tb
      have tc := tb.withDirty g.dirty ?_
      · refine ⟨tc,fun _ _ => leafAt_mem rfl _ _,?_,rfl,hsame⟩
        intro q _ hq hkq
        have hqp : q≠p := by
          rintro rfl
          rw [hk] at hkq
          cases hkq
        refine ⟨rfl,?_,?_⟩
        · show (dropReference p m.pmm).bitmap q=true
          rw [(hother q hqp).1]
          exact hq
        · show update m.kernelPages p false q=false
          rw [update_of_ne hqp]
          exact hkq
      · rintro q hq - (rfl | hd)
        · have hq : (dropReference q m.pmm).bitmap q=true := hq
          rw [hfree] at hq
          cases hq
        · exact Or.inl hd
    · intro q hq
      have hqp : q≠p := by
        rintro rfl
        rw [update_self] at hq
        cases hq
      rw [update_of_ne hqp] at hq
      exact t.inv.kernelHeld hq
    · intro q hq hclean
      rw [not_or] at hclean
      rw [update_of_ne hclean.1] at hq
      exact ⟨hclean.2,hq⟩

theorem writeStep (p offset : Nat) (byte : UInt8) :
    Twin { g with held := kernelHeld (KernelStep.run m (.write p offset byte)) }
        (KernelStep.run m (.write p offset byte)) (KernelStep.run n (.write p offset byte)) ∧
      SameLeaves g.roots m (KernelStep.run m (.write p offset byte)) ∧
      KernelKeeps m (KernelStep.run m (.write p offset byte)) := by
  simp only [KernelStep.run,t.kernelPages]
  cases hk : m.kernelPages p with
  | false => exact ⟨t,SameLeaves.refl _ _,KernelKeeps.refl _⟩
  | true =>
    simp only [if_true]
    obtain ⟨hpos,-⟩ := t.inv.kernelHeld hk
    have hlabel : g.label p=none := by
      by_contra h
      have h0 : kernelHeld m p=0 := (t.inv.table h).2.2
      have hpos : 0<kernelHeld m p := hpos
      omega
    have ta := t.writeBytes hlabel (t.inv.managed_of_held hpos) offset 1 (fun _ => byte)
    refine ⟨ta,?_,⟨?_,rfl,SameMap.refl _⟩⟩
    · intro r vpn hr hv
      exact t.inv.leafAt_setPage hlabel hr hv _
    intro q _ hb hkq
    refine ⟨setPage_mem_of_ne _ _ ?_,hb,hkq⟩
    rintro rfl
    rw [hk] at hkq
    cases hkq

theorem linkStep (index : Nat) (e : BitVec 64) :
    Twin { g with held := kernelHeld (KernelStep.run m (.link index e)) }
        (KernelStep.run m (.link index e)) (KernelStep.run n (.link index e)) ∧
      SameLeaves g.roots m (KernelStep.run m (.link index e)) ∧
      KernelKeeps m (KernelStep.run m (.link index e)) := by
  simp only [KernelStep.run,t.kernelRoot]
  by_cases hi : 256 ≤ index
  case neg =>
    simp only [hi,if_false]
    exact ⟨t,SameLeaves.refl _ _,KernelKeeps.refl _⟩
  simp only [hi,if_true]
  have inv := t.inv.linkKernel hi e
  have hmem {q : Nat} (h : n.mem q=m.mem q) :
      (n.setEntry (m.kernelRoot/4096) index e).mem q =
        (m.setEntry (m.kernelRoot/4096) index e).mem q := by
    by_cases hq : q=m.kernelRoot/4096
    · simp only [Machine.setEntry,setPage_mem,hq,if_true,t.mem_kernelRoot]
    · rw [setEntry_mem_of_ne _ _ _ hq,setEntry_mem_of_ne _ _ _ hq]
      exact h
  refine ⟨⟨inv,t.pmm,t.kernelRoot,t.kernelPages,fun hb hd hk => hmem (t.mem hb hd hk),
    fun h => hmem (t.mem_label h),hmem t.mem_kernelRoot,?_⟩,?_,?_,rfl,SameMap.refl _⟩
  · intro q j hj
    by_cases hq : q=m.kernelRoot/4096
    · rw [hq]
      exact congrFun (hmem t.mem_kernelRoot) j
    · rw [setEntry_mem_of_ne _ _ _ hq,setEntry_mem_of_ne _ _ _ hq]
      exact t.tail hj
  · intro r vpn hr hv
    apply t.inv.forest.leafAt_congr inv.forest hr hr hv (fun _ => Iff.rfl)
    intro q hq
    apply setEntry_entry_of_ne
    left
    exact Ne.symm (t.inv.label_ne_kernelRoot (by rw [hq]; simp))
  · intro q hm hb hk
    refine ⟨setEntry_mem_of_ne _ _ _ ?_,hb,hk⟩
    exact Ne.symm (t.inv.ne_kernelRoot hm)

omit t in
/-- Whatever the rest of the kernel does, user memory stays. -/
theorem runKernel (steps : List KernelStep) (t : Twin { g with held := kernelHeld m } m n) :
    Twin { g with held := kernelHeld (runKernel steps m) } (runKernel steps m)
        (runKernel steps n) ∧ SameLeaves g.roots m (runKernel steps m) ∧
      KernelKeeps m (Memory.runKernel steps m) := by
  induction steps generalizing m n with
  | nil => exact ⟨t,SameLeaves.refl _ _,KernelKeeps.refl _⟩
  | cons step steps ih =>
    have hstep : Twin { g with held := kernelHeld (KernelStep.run m step) } (KernelStep.run m step)
        (KernelStep.run n step) ∧ SameLeaves g.roots m (KernelStep.run m step) ∧
        KernelKeeps m (KernelStep.run m step) := by
      cases step with
      | take => exact t.takeStep
      | give p => exact t.giveStep p
      | write p offset byte => exact t.writeStep p offset byte
      | link index e => exact t.linkStep index e
    obtain ⟨t1,hleaves,hkeeps⟩ := hstep
    obtain ⟨t2,hleaves2,hkeeps2⟩ := ih t1
    exact ⟨t2,hleaves.trans hleaves2,hkeeps.trans hkeeps2⟩

end Twin

end ConeOS.Memory
