import ConeOS.Memory.Destroy

namespace ConeOS.Memory

open ConeOS.Library Machine Function

theorem cloneLowerHalf_empty {m : Machine} (root : Nat) {is : List Nat}
    (h : ∀ i ∈ is, present (m.entry (m.kernelRoot/4096) i)=false) :
    cloneLowerHalf root is m=(none,m) := by
  induction is with
  | nil => rfl
  | cons i is ih =>
    have hi := h i (List.mem_cons_self ..)
    rw [cloneLowerHalf]
    simp only [hi,Bool.not_false,if_true]
    exact ih (fun j hj => h j (List.mem_cons_of_mem i hj))

namespace Twin

variable {g : Ghost} {m n : Machine}

theorem cloneLowerHalf_eq (t : Twin g m n) (root : Nat) :
    cloneLowerHalf root (List.range 256) m=(none,m) ∧
      cloneLowerHalf root (List.range 256) n=(none,n) := by
  constructor
  · apply cloneLowerHalf_empty
    intro i hi
    exact t.inv.kernelLower (List.mem_range.mp hi)
  apply cloneLowerHalf_empty
  intro i hi
  rw [t.kernelRoot,entry,t.mem_kernelRoot]
  exact t.inv.kernelLower (List.mem_range.mp hi)

/-- What `vmm_space_create` does once it has its root page. -/
def rootPage (root : Nat) (m : Machine) : Machine :=
  ((m.take root).clearPage root).setPage root (fun i =>
    if i<256 then ((m.take root).clearPage root).mem root i
    else ((m.take root).clearPage root).mem (m.kernelRoot/4096) i)

theorem rootPage_entry {m : Machine} {root i : Nat} (hi : i<256) :
    (rootPage root m).entry root i=0 := by
  simp [rootPage,entry,hi,clearPage]

/-- A new space is a root with an empty lower half. -/
theorem newSpace (t : Twin g m n) {r : Nat} (hfree : m.pmm.bitmap r=false)
    (tc : Twin { g with held := update g.held r 1 } ((m.take r).clearPage r)
      ((n.take r).clearPage r)) :
    r ∉ g.roots ∧ Twin { g with
        roots := insert r g.roots
        label := update g.label r (some (r, [])) } (rootPage r m) (rootPage r n) ∧
      (∀ {vpn}, vpn<userPages → leafAt (rootPage r m) r vpn=none) ∧
      SameLeaves g.roots m (rootPage r m) ∧
      ∀ q, q≠r → (rootPage r m).mem q=m.mem q := by
  obtain ⟨hm,hlabel,hmapped,hheld,hk⟩ := t.inv.free_page hfree
  have hmem (q : Nat) (hq : q≠r) : (rootPage r m).mem q=m.mem q := by
    rw [rootPage,setPage_mem_of_ne _ _ hq,clearPage_mem_of_ne _ hq]
    rfl
  have td : Twin { g with held := update g.held r 1 } (rootPage r m) (rootPage r n) := by
    have hblock : (fun i => if i<256 then ((n.take r).clearPage r).mem r i
        else ((n.take r).clearPage r).mem (n.kernelRoot/4096) i) =
        fun i => if i<256 then ((m.take r).clearPage r).mem r i
        else ((m.take r).clearPage r).mem (m.kernelRoot/4096) i := by
      have hroot : ((n.take r).clearPage r).mem (m.kernelRoot/4096) =
        ((m.take r).clearPage r).mem (m.kernelRoot/4096) := tc.mem_kernelRoot
      rw [t.kernelRoot,hroot]
      simp [clearPage]
    exact tc.setPage hlabel hm (fun _ _ _ => hblock) (fun i _ => congrFun hblock i)
      (fun _ _ h => h)
  have hleaves : SameLeaves g.roots m (rootPage r m) := by
    intro s vpn hs hv
    apply t.inv.forest.leafAt_congr td.inv.forest hs hs hv (fun _ => Iff.rfl)
    intro q hq
    rw [entry,entry,hmem q]
    rintro rfl
    rw [hlabel] at hq
    cases hq
  have hempty (i : Nat) (hi : i<256) : present ((rootPage r m).entry r i)=false := by
    rw [rootPage_entry hi,present_zero]
  have hmapped' : mappings (rootPage r m) g.roots r=0 := by
    rw [mappings_congr (fun s hs vpn hv => hleaves hs hv),hmapped]
  have hsame : (rootPage r n).mem r=(rootPage r m).mem r := by
    have hroot : ((n.take r).clearPage r).mem (m.kernelRoot/4096) =
      ((m.take r).clearPage r).mem (m.kernelRoot/4096) := tc.mem_kernelRoot
    simp only [rootPage,setPage_mem,if_true,t.kernelRoot,hroot]
    simp [clearPage]
  obtain ⟨hnew,te⟩ := td.newRoot (r := r) (by simp) hk hmapped' hsame hempty
  simp only [update_back 1 hheld] at te
  exact ⟨hnew,te,fun hv => td.inv.forest.leafAt_newRoot hnew hlabel hempty hv,hleaves,hmem⟩

/-- Creating a space changes nothing that is in use. -/
theorem vmmSpaceCreate (work : KernelWork) (t : Twin { g with held := kernelHeld m } m n) :
    ∃ m' n',
      (vmmSpaceCreate work m=(none,m') ∧ vmmSpaceCreate work n=(none,n') ∧
        Twin { g with held := kernelHeld m' } m' n' ∧ SameLeaves g.roots m m' ∧
        KernelKeeps m m') ∨
      ∃ r label', vmmSpaceCreate work m=(some ⟨r*4096,false⟩,m') ∧
        vmmSpaceCreate work n=(some ⟨r*4096,false⟩,n') ∧ r ∉ g.roots ∧
        Twin { g with
          roots := insert r g.roots
          label := label'
          held := kernelHeld m' } m' n' ∧ SameLeaves g.roots m m' ∧
        (∀ {vpn}, vpn<userPages → leafAt m' r vpn=none) ∧ KernelKeeps m m' := by
  unfold Memory.vmmSpaceCreate kmalloc
  obtain ⟨t1,hleaves1,hkeeps1⟩ := t.runKernel work.steps
  generalize Memory.runKernel work.steps m=m1 at *
  generalize Memory.runKernel work.steps n=n1 at *
  cases work.ok with
  | false => exact ⟨m1,n1,Or.inl ⟨rfl,rfl,t1,hleaves1,hkeeps1⟩⟩
  | true =>
    dsimp only
    unfold allocPage
    rcases t1.allocCleared 0 with ⟨hm,hn⟩ | ⟨r,hfree,-,hm,hn,tc,-,-⟩
    · rw [hm,hn]
      exact ⟨m1,n1,Or.inl ⟨rfl,rfl,t1,hleaves1,hkeeps1⟩⟩
    rw [hm,hn]
    obtain ⟨hclone,hclone'⟩ := tc.cloneLowerHalf_eq r
    simp only [hclone,hclone']
    obtain ⟨hnew,td,hnone,hleaves2,hmem⟩ := t1.newSpace hfree tc
    refine ⟨rootPage r m1,rootPage r n1,Or.inr ⟨r,_,rfl,rfl,hnew,td,
      hleaves1.trans hleaves2,hnone,hkeeps1.trans ⟨?_,rfl,(t1.keeps_take 0 hfree).map⟩⟩⟩
    intro q _ hb hk
    have hqr : q≠r := by
      rintro rfl
      rw [hfree] at hb
      cases hb
    refine ⟨hmem q hqr,?_,hk⟩
    show update m1.pmm.bitmap r true q=true
    rw [update_of_ne hqr]
    exact hb

end Twin

end ConeOS.Memory
