import ConeOS.Vfs.References

namespace ConeOS.Vfs

open ConeOS.Library Function List

section Operations

variable {σ : Type} {v : VfsState σ}

theorem allocateOpenFileLocked_some {k : FileRef} {w : VfsState σ}
    (h : allocateOpenFileLocked v=(some k,w)) :
    (v.openFiles k).used=false ∧
      w = { v with openFiles := update v.openFiles k ⟨true,1,0⟩ } := by
  unfold allocateOpenFileLocked at h
  cases hf : firstIndex (fun k => !(v.openFiles k).used) with
  | none => simp [hf] at h
  | some j =>
    simp only [hf,Prod.mk.injEq,Option.some.injEq] at h
    obtain ⟨rfl,rfl⟩ := h
    exact ⟨by simpa using firstIndex_some hf,rfl⟩

theorem allocateOpenFileLocked_none {w : VfsState σ}
    (h : allocateOpenFileLocked v=(none,w)) : w=v := by
  unfold allocateOpenFileLocked at h
  cases hf : firstIndex (fun k => !(v.openFiles k).used) with
  | none => simpa [hf] using h.symm
  | some j => simp [hf] at h

/-- Taking a record and giving it back at once, as a failing open does. -/
theorem DescriptorInv.takeAndRelease (inv : DescriptorInv v) (k : FileRef)
    (hk : (v.openFiles k).used=false) :
    DescriptorInv (openFileReleaseLocked (some k)
      { v with openFiles := update v.openFiles k ⟨true,1,0⟩ }) := by
  have hzero : tally (holdsFile k) v.descriptors=0 := by
    by_contra h
    have hu := (inv.fileUsed k).mpr (Nat.pos_of_ne_zero h)
    simp [hk] at hu
  have heq : openFileReleaseLocked (some k)
      { v with openFiles := update v.openFiles k ⟨true,1,0⟩ } =
        { v with openFiles := update v.openFiles k ⟨false,0,0⟩ } := by
    simp [openFileReleaseLocked]
  rw [heq]
  refine ⟨inv.distinct,?_,?_,inv.readers,inv.writers,inv.pipeUsed⟩
  · intro j
    by_cases hj : j=k
    · subst hj
      simp [hzero]
    · simpa [hj] using inv.references j
  intro j
  by_cases hj : j=k
  · subst hj
    simp [hzero]
  · simpa [hj] using inv.fileUsed j

theorem DescriptorInv.openDescriptor (inv : DescriptorInv v) (owner : Nat) (name : Path)
    (device : DevfsDevice) : DescriptorInv (openDescriptor owner name device v).state := by
  unfold Vfs.openDescriptor
  cases hn : freeNumber v owner 3 with
  | none => exact inv
  | some number =>
    have hnew := lookup_none (freeNumber_some hn)
    cases hf : allocateOpenFileLocked v with
    | mk file w =>
      cases file with
      | none => cases allocateSlot v <;> exact allocateOpenFileLocked_none hf ▸ inv
      | some k =>
        obtain ⟨hk,rfl⟩ := allocateOpenFileLocked_some hf
        cases hs : allocateSlot v with
        | none => exact inv.takeAndRelease k hk
        | some i => exact inv.installFile i k _ (allocateSlot_some hs) hk rfl rfl rfl hnew

theorem DescriptorInv.vfsOpen (inv : DescriptorInv v) (ops : FsKind → FsOps σ) (cwd : Option Path)
    (owner : Nat) (name : Path) (create : Bool) :
    DescriptorInv (vfsOpen ops cwd owner name create v).state := by
  unfold Vfs.vfsOpen
  split
  · exact inv
  split
  · exact inv
  dsimp only
  split
  · exact inv.withBackend _
  · exact ((inv.withBackend _).ensureStandardStreams owner).openDescriptor owner _ _

theorem firstTwo_some {α : Type} {p : α → Bool} {l : List α} {a b : α}
    (h : firstTwo p l=some (a,b)) (hl : l.Nodup) : p a=true ∧ p b=true ∧ a≠b := by
  unfold firstTwo at h
  split at h
  next x y rest hxy =>
    simp only [Option.some.injEq,Prod.mk.injEq] at h
    obtain ⟨rfl,rfl⟩ := h
    have hx : x ∈ l.filter p := by simp [hxy]
    have hy : y ∈ l.filter p := by simp [hxy]
    have hnd := hl.filter p
    rw [hxy] at hnd
    refine ⟨(mem_filter.mp hx).2,(mem_filter.mp hy).2,?_⟩
    intro he
    simp [he] at hnd
  · simp at h

/-- A fresh pipe and its two ends. -/
theorem DescriptorInv.installPipe (inv : DescriptorInv v) (k : PipeRef) (fresh : VfsPipe)
    (i0 i1 : SlotRef) (fd0 fd1 : VfsFd) (hk : (v.pipes k).used=false)
    (hfresh : fresh.used=true ∧ fresh.readers=1 ∧ fresh.writers=1)
    (hi0 : (v.descriptors i0).used=false) (hi1 : (v.descriptors i1).used=false) (hne : i0≠i1)
    (h0 : fd0.used=true ∧ fd0.file=none ∧ fd0.pipe=some k ∧ fd0.pipeMode = .read)
    (h1 : fd1.used=true ∧ fd1.file=none ∧ fd1.pipe=some k ∧ fd1.pipeMode = .write)
    (hnum : fd0.number≠fd1.number)
    (hnew : ∀ j, (v.descriptors j).used=true →
      ((v.descriptors j).owner=fd0.owner → (v.descriptors j).number≠fd0.number) ∧
      ((v.descriptors j).owner=fd1.owner → (v.descriptors j).number≠fd1.number)) :
    DescriptorInv (setSlot i1 fd1 (setSlot i0 fd0
      { v with pipes := update v.pipes k fresh })) := by
  have hidle : (v.pipes k).readers=0 ∧ (v.pipes k).writers=0 := by
    have h := (inv.pipeUsed k).not
    rw [hk] at h
    simp only [Bool.false_eq_true,not_false_eq_true,true_iff,not_lt] at h
    omega
  have hcount (q : VfsFd → Bool) (hq : ∀ g, g.used=false → q g=false) :
      tally q (update (update v.descriptors i0 fd0) i1 fd1) =
        tally q v.descriptors+(q fd0).toNat+(q fd1).toNat := by
    have ha := tally_update q v.descriptors i0 fd0
    have hb := tally_update q (update v.descriptors i0 fd0) i1 fd1
    rw [update_of_ne hne.symm,hq _ hi1] at hb
    rw [hq _ hi0] at ha
    simp only [Bool.toNat_false,Nat.add_zero] at ha hb
    omega
  have hF (j : FileRef) : tally (holdsFile j)
      (update (update v.descriptors i0 fd0) i1 fd1) =
        tally (holdsFile j) v.descriptors := by
    rw [hcount _ (fun g hg => by simp [holdsFile,hg])]
    simp [holdsFile,h0.2.1,h1.2.1]
  have hE (j : PipeRef) (m : PipeMode) : tally (holdsEnd j m)
      (update (update v.descriptors i0 fd0) i1 fd1) =
        tally (holdsEnd j m) v.descriptors+(decide (k=j ∧ PipeMode.read=m)).toNat +
          (decide (k=j ∧ PipeMode.write=m)).toNat := by
    rw [hcount _ (fun g hg => by simp [holdsEnd,hg])]
    simp [holdsEnd,h0.1,h0.2.2.1,h0.2.2.2,h1.1,h1.2.2.1,h1.2.2.2]
  have hold (j : PipeRef) (m : PipeMode) (hm : m ≠ .none) (hj : k=j) :
      tally (holdsEnd j m) v.descriptors=0 := by
    subst hj
    cases m with
    | none => exact absurd rfl hm
    | read => rw [← inv.readers k,hidle.1]
    | write => rw [← inv.writers k,hidle.2]
  refine ⟨?_,?_,?_,?_,?_,?_⟩
  · intro a b
    simp only [setSlot_descriptors,update_apply]
    split_ifs with ha hb hb0 ha0 hb hb0 hb hb0
    · intros; rw [ha,hb]
    · intro _ _ _ hn; exact absurd hn.symm hnum
    · intro _ hu ho hn
      exact absurd hn.symm ((hnew b hu).2 ho.symm)
    · intro _ _ _ hn; exact absurd hn hnum
    · intros; rw [ha0,hb0]
    · intro _ hu ho hn
      exact absurd hn.symm ((hnew b hu).1 ho.symm)
    · intro hu _ ho hn
      exact absurd hn ((hnew a hu).2 ho)
    · intro hu _ ho hn
      exact absurd hn ((hnew a hu).1 ho)
    · exact inv.distinct a b
  · intro j
    simp only [setSlot_descriptors,setSlot_openFiles,hF]
    exact inv.references j
  · intro j
    simp only [setSlot_descriptors,setSlot_openFiles,hF]
    exact inv.fileUsed j
  · intro j
    simp only [setSlot_descriptors,setSlot_pipes,hE,update_apply]
    split_ifs with hj
    · subst hj
      simp [hfresh.2.1,hold _ .read (by simp) rfl]
    · simpa [Ne.symm hj] using inv.readers j
  · intro j
    simp only [setSlot_descriptors,setSlot_pipes,hE,update_apply]
    split_ifs with hj
    · subst hj
      simp [hfresh.2.2,hold _ .write (by simp) rfl]
    · simpa [Ne.symm hj] using inv.writers j
  · intro j
    simp only [setSlot_pipes,update_apply]
    split_ifs with hj
    · simp [hfresh.1,hfresh.2.1,hfresh.2.2]
    · exact inv.pipeUsed j

theorem DescriptorInv.vfsPipe (inv : DescriptorInv v) (owner : Nat) :
    DescriptorInv (vfsPipe owner v).1.state := by
  unfold Vfs.vfsPipe
  generalize hw : Vfs.ensureStandardStreams owner v=w
  have winv : DescriptorInv w := hw ▸ inv.ensureStandardStreams owner
  dsimp only
  split
  next k n0 n1 i0 i1 hk hn hs =>
    obtain ⟨hn0,hn1,hne⟩ := firstTwo_some hn nodup_range'
    obtain ⟨hs0,hs1,hsne⟩ := firstTwo_some hs (nodup_finRange _)
    have hidle : (w.pipes k).used=false := by simpa using firstIndex_some hk
    refine winv.installPipe k _ i0 i1 _ _ hidle ⟨rfl,rfl,rfl⟩ (by simpa using hs0)
      (by simpa using hs1) hsne ⟨rfl,rfl,rfl,rfl⟩ ⟨rfl,rfl,rfl,rfl⟩ (fun he => hne (Int.ofNat_inj.mp he)) ?_
    intro j hj
    exact ⟨fun ho => lookup_none (by simpa using hn0) j hj ho,
      fun ho => lookup_none (by simpa using hn1) j hj ho⟩
  · exact winv

theorem DescriptorInv.vfsDup (inv : DescriptorInv v) (owner : Nat) (number : Int) :
    DescriptorInv (vfsDup owner number v).state := by
  unfold Vfs.vfsDup
  generalize hw : Vfs.ensureStandardStreams owner v=w
  have winv : DescriptorInv w := hw ▸ inv.ensureStandardStreams owner
  dsimp only
  split
  · exact winv
  next source hsource =>
  split
  next destination target hd ht =>
    exact winv.copySlot target source
      { w.descriptors source with owner := owner, number := destination, used := true }
      (allocateSlot_some ht) (lookup_some hsource).1 rfl rfl rfl rfl
      (fun j hj ho => lookup_none (freeNumber_some hd) j hj ho)
  · exact winv

@[simp] theorem closeSlot_descriptors (i j : SlotRef) (h : j≠i) :
    (Vfs.closeSlot i v).descriptors j=v.descriptors j := by
  simp [Vfs.closeSlot,h]

@[simp] theorem closeSlot_self (i : SlotRef) : ((Vfs.closeSlot i v).descriptors i).used=false := by
  simp [Vfs.closeSlot]

theorem duplicateInto_closeSlot (target : SlotRef) (saved : VfsFd) (owner : Nat) (number : Int) :
    duplicateInto target saved owner number
        (openFileReleaseLocked (v.descriptors target).file
          (pipeDropReferenceLocked (v.descriptors target).pipe (v.descriptors target).pipeMode v)) =
      duplicateInto target saved owner number (Vfs.closeSlot target v) := by
  simp [duplicateInto,Vfs.closeSlot]

theorem DescriptorInv.vfsDup2 (inv : DescriptorInv v) (owner : Nat) (source destination : Int) :
    DescriptorInv (vfsDup2 owner source destination v).state := by
  unfold Vfs.vfsDup2
  split
  · exact inv
  generalize hw : Vfs.ensureStandardStreams owner v=w
  have winv : DescriptorInv w := hw ▸ inv.ensureStandardStreams owner
  dsimp only
  split
  · exact winv
  next from_ hfrom =>
  obtain ⟨hfu,hfo,hfn⟩ := lookup_some hfrom
  split
  · exact winv
  next hne =>
  unfold dup2Target
  cases hl : lookup w owner destination with
  | some target =>
    obtain ⟨htu,hto,htn⟩ := lookup_some hl
    have hdiff : from_≠target := by
      intro he
      exact hne (by rw [← hfn,← htn,he])
    -- the old contents are given back first, so the slot is free when it is filled
    have cinv := winv.closeSlot target htu
    simp only [htu,if_true,duplicateInto_closeSlot]
    rw [← closeSlot_descriptors target from_ hdiff]
    refine cinv.copySlot target from_
      { (Vfs.closeSlot target w).descriptors from_ with
        owner := owner, number := destination, used := true }
      (closeSlot_self target) (by simp [hdiff,hfu]) rfl rfl rfl rfl ?_
    intro j hj ho
    by_cases hjt : j=target
    · subst hjt
      simp at hj
    · simp only [ne_eq,hjt,not_false_eq_true,closeSlot_descriptors] at hj ho ⊢
      intro hn
      exact hjt (winv.distinct j target hj htu (ho.trans hto.symm) (hn.trans htn.symm))
  | none =>
    cases ha : allocateSlot w with
    | none => exact winv
    | some target =>
      have hfree := allocateSlot_some ha
      simp only [hfree,Bool.false_eq_true,if_false]
      exact winv.copySlot target from_
        { w.descriptors from_ with owner := owner, number := destination, used := true }
        hfree hfu rfl rfl rfl rfl (fun j hj ho => lookup_none hl j hj ho)

theorem DescriptorInv.vfsClose (inv : DescriptorInv v) (owner : Nat) (number : Int) :
    DescriptorInv (vfsClose owner number v).state := by
  unfold Vfs.vfsClose
  split
  · exact inv
  next i hi =>
  split
  · exact inv
  · exact inv.closeSlot i (lookup_some hi).1

/-- close_all keeps the invariant, closes every descriptor of the owner it passes, and
leaves the other descriptors alone. -/
theorem closeAllFrom_spec (owner : Nat) (is : List SlotRef) (c : Bool) (inv : DescriptorInv v) :
    DescriptorInv (closeAllFrom owner is (c,v)).2 ∧
    (∀ j ∈ is, ((closeAllFrom owner is (c,v)).2.descriptors j).used=true →
      ((closeAllFrom owner is (c,v)).2.descriptors j).owner≠owner) ∧
    (∀ j, ((closeAllFrom owner is (c,v)).2.descriptors j).used=true →
      (v.descriptors j).used=true ∧
        (closeAllFrom owner is (c,v)).2.descriptors j=v.descriptors j) := by
  induction is generalizing v c with
  | nil => exact ⟨inv,by simp,fun j hj => ⟨hj,rfl⟩⟩
  | cons i is ih =>
    unfold closeAllFrom
    split
    next hi =>
      have hi : (v.descriptors i).used=true ∧ (v.descriptors i).owner = owner := by
        simpa using hi
      have cinv := inv.closeSlot i hi.1
      obtain ⟨hinv,hnone,hkeep⟩ := ih (c || (v.descriptors i).pipeMode ≠ .none) cinv
      refine ⟨hinv,?_,?_⟩
      · intro j hj hu
        rcases mem_cons.mp hj with rfl | hj
        · have h := (hkeep j hu).1
          simp at h
        · exact hnone j hj hu
      intro j hu
      obtain ⟨hj,he⟩ := hkeep j hu
      have hne : j≠i := by
        rintro rfl
        simp at hj
      rw [closeSlot_descriptors i j hne] at hj he
      exact ⟨hj,he⟩
    next hi =>
      obtain ⟨hinv,hnone,hkeep⟩ := ih c inv
      refine ⟨hinv,?_,hkeep⟩
      intro j hj hu
      rcases mem_cons.mp hj with rfl | hj
      · obtain ⟨h,he⟩ := hkeep j hu
        rw [he]
        intro ho
        simp [h,ho] at hi
      · exact hnone j hj hu

theorem DescriptorInv.vfsCloseAll (inv : DescriptorInv v) (owner : Nat) :
    DescriptorInv (vfsCloseAll owner v).2 := by
  unfold Vfs.vfsCloseAll
  exact (closeAllFrom_spec owner (List.finRange vfsDescriptorSlots) false inv).1

theorem vfsCloseAll_none (inv : DescriptorInv v) (owner : Nat) (j : SlotRef) :
    ((vfsCloseAll owner v).2.descriptors j).used=true →
      ((vfsCloseAll owner v).2.descriptors j).owner≠owner := by
  unfold Vfs.vfsCloseAll
  exact (closeAllFrom_spec owner (List.finRange vfsDescriptorSlots) false inv).2.1 j
    (mem_finRange j)

/-- What one round of the inheriting loops leaves in the table. -/
theorem DescriptorInv.retainSlot (inv : DescriptorInv v) (target source : SlotRef) (fd : VfsFd)
    (hfree : (v.descriptors target).used=false) (hs : (v.descriptors source).used=true)
    (hfd : fd.used=true) (hfile : fd.file=(v.descriptors source).file)
    (hpipe : fd.pipe=(v.descriptors source).pipe)
    (hmode : fd.pipeMode=(v.descriptors source).pipeMode)
    (hnew : ∀ j, (v.descriptors j).used=true → (v.descriptors j).owner=fd.owner →
      (v.descriptors j).number≠fd.number) :
    DescriptorInv (pipeRetainReference fd.pipe fd.pipeMode
        (openFileRetainLocked fd.file (setSlot target fd v))) ∧
      (pipeRetainReference fd.pipe fd.pipeMode
        (openFileRetainLocked fd.file (setSlot target fd v))).descriptors =
          update v.descriptors target fd := by
  have huse : ∀ k, fd.pipe=some k → fd.pipeMode ≠ .none →
      ((openFileRetainLocked fd.file (setSlot target fd v)).pipes k).used=true := by
    intro k hk hm
    rw [openFileRetainLocked_pipes,setSlot_pipes]
    exact inv.pipeOf source hs k (hpipe ▸ hk) (hmode ▸ hm)
  rw [pipeRetainReference_eq _ _ huse]
  exact ⟨inv.copySlot target source fd hfree hs hfd hfile hpipe hmode hnew,by simp⟩

theorem DescriptorInv.inheritFrom (inv : DescriptorInv v) (parent child : Nat) (ns : List Nat)
    (hns : ns.Nodup)
    (hnew : ∀ n ∈ ns, ∀ j, (v.descriptors j).used=true → (v.descriptors j).owner=child →
      (v.descriptors j).number≠(n : Int)) :
    DescriptorInv (inheritFrom parent child ns v).2 := by
  induction ns generalizing v with
  | nil => exact inv
  | cons n ns ih =>
    obtain ⟨hn,hns⟩ := nodup_cons.mp hns
    unfold Vfs.inheritFrom
    cases hl : lookup v parent n with
    | none => simpa [inheritSlot,hl] using inv
    | some source =>
      obtain ⟨hsu,hso,hsn⟩ := lookup_some hl
      cases ha : allocateSlot v with
      | none => simpa [inheritSlot,hl,ha] using inv
      | some target =>
        simp only [inheritSlot,hl,ha]
        obtain ⟨rinv,rdesc⟩ := inv.retainSlot target source
          { v.descriptors source with owner := child } (allocateSlot_some ha) hsu hsu rfl rfl rfl
          (fun j hj ho => by rw [hsn]; exact hnew n (by simp) j hj ho)
        apply ih rinv hns
        intro m hm j
        rw [rdesc]
        by_cases hj : j=target
        · subst hj
          intro _ _
          rw [update_self]
          simp only [hsn]
          intro he
          have he : n=m := by exact_mod_cast he
          exact hn (he ▸ hm)
        · rw [update_of_ne hj]
          exact hnew m (by simp [hm]) j

theorem DescriptorInv.vfsInheritStandard (inv : DescriptorInv v) (parent child : Nat) :
    DescriptorInv (vfsInheritStandard parent child v).state := by
  unfold Vfs.vfsInheritStandard
  have einv := inv.ensureStandardStreams parent
  have hnone := vfsCloseAll_none einv child
  have winv := einv.vfsCloseAll child
  have hinv := winv.inheritFrom parent child [0,1,2] (by decide)
    (fun n _ j hj ho => absurd ho (hnone j hj))
  dsimp only
  split
  next u hu =>
    rw [hu] at hinv
    exact hinv
  next u hu =>
    rw [hu] at hinv
    exact hinv.vfsCloseAll child

/-- The copying loop: every descriptor the child has so far copies one of the parent's that
the loop has passed, so the numbers still to come are free. -/
theorem DescriptorInv.forkFrom (inv : DescriptorInv v) (parent child : Nat) (is : List SlotRef)
    (c : Bool) (his : is.Nodup)
    (hchild : ∀ j, (v.descriptors j).used=true → (v.descriptors j).owner=child →
      ∃ i, i ∉ is ∧ (v.descriptors i).used=true ∧ (v.descriptors i).owner=parent ∧
        (v.descriptors i).number=(v.descriptors j).number) :
    DescriptorInv (forkFrom parent child is c v).2 := by
  induction is generalizing v c with
  | nil => exact inv
  | cons i is ih =>
    obtain ⟨hi,his⟩ := nodup_cons.mp his
    unfold Vfs.forkFrom
    by_cases hp : (v.descriptors i).used=true ∧ (v.descriptors i).owner=parent
    · obtain ⟨hu,ho⟩ := hp
      cases ha : allocateSlot v with
      | none => simpa [forkSlot,hu,ho,ha] using inv
      | some target =>
        have hfree := allocateSlot_some ha
        simp only [forkSlot,hu,ho,ha,Bool.not_true,bne_self_eq_false,Bool.or_self,
          Bool.false_eq_true,if_false]
        obtain ⟨rinv,rdesc⟩ := inv.retainSlot target i
          { v.descriptors i with owner := child, used := true } hfree hu rfl rfl rfl rfl (by
            intro j hj hjc hn
            obtain ⟨i',hi',hu',ho',hn'⟩ := hchild j hj hjc
            have he : i'=i := inv.distinct i' i hu' hu (ho'.trans ho.symm) (hn'.trans hn)
            exact hi' (by simp [he]))
        apply ih rinv _ his
        intro j
        have hne : i≠target := by
          rintro rfl
          simp [hu] at hfree
        rw [rdesc]
        by_cases hj : j=target
        · subst hj
          intro _ _
          refine ⟨i,hi,?_⟩
          simp [hne,hu,ho]
        rw [update_of_ne hj]
        intro hju hjc
        obtain ⟨i',hi',hu',ho',hn'⟩ := hchild j hju hjc
        have hne' : i'≠target := by
          rintro rfl
          simp [hu'] at hfree
        refine ⟨i',fun h => hi' (mem_cons_of_mem _ h),?_⟩
        rw [update_of_ne hne']
        exact ⟨hu',ho',hn'⟩
    · have hskip : forkSlot parent child i v=some (false,v) := by
        unfold forkSlot
        by_cases hu : (v.descriptors i).used=true
        · have ho : (v.descriptors i).owner≠parent := fun ho => hp ⟨hu,ho⟩
          simp [ho]
        · simp [hu]
      rw [hskip]
      apply ih inv _ his
      intro j hj hjc
      obtain ⟨i',hi',h⟩ := hchild j hj hjc
      exact ⟨i',fun h => hi' (mem_cons_of_mem _ h),h⟩

theorem DescriptorInv.vfsFork (inv : DescriptorInv v) (parent child : Nat) :
    DescriptorInv (vfsFork parent child v).state := by
  unfold Vfs.vfsFork
  have einv := inv.ensureStandardStreams parent
  have hnone := vfsCloseAll_none einv child
  have winv := einv.vfsCloseAll child
  dsimp only
  split
  · exact winv
  have finv := winv.forkFrom parent child (List.finRange vfsDescriptorSlots) false
    (nodup_finRange _) (fun j hj ho => absurd ho (hnone j hj))
  split
  next inherited u hu =>
    rw [hu] at finv
    exact finv
  next u hu =>
    rw [hu] at finv
    exact finv.vfsCloseAll child

end Operations

/-- The calls of vfs.c that change the descriptor table, each with its caller. -/
inductive TableCall
  | open (cwd : Option Path) (owner : Nat) (name : Path) (create : Bool)
  | pipe (owner : Nat)
  | dup (owner : Nat) (number : Int)
  | dup2 (owner : Nat) (source destination : Int)
  | close (owner : Nat) (number : Int)
  | closeAll (owner : Nat)
  | inheritStandard (parent child : Nat)
  | fork (parent child : Nat)

section Runs

variable {σ : Type} (ops : FsKind → FsOps σ)

def TableCall.run (v : VfsState σ) : TableCall → Outcome σ
  | .open cwd owner name create => vfsOpen ops cwd owner name create v
  | .pipe owner => (vfsPipe owner v).1
  | .dup owner number => vfsDup owner number v
  | .dup2 owner source destination => vfsDup2 owner source destination v
  | .close owner number => vfsClose owner number v
  | .closeAll owner =>
    ⟨0,(vfsCloseAll owner v).1,(vfsCloseAll owner v).2⟩
  | .inheritStandard parent child => vfsInheritStandard parent child v
  | .fork parent child => vfsFork parent child v

def runCalls (v : VfsState σ) (calls : List TableCall) : VfsState σ :=
  calls.foldl (fun v c => (c.run ops v).state) v

theorem DescriptorInv.run {v : VfsState σ} (inv : DescriptorInv v) (c : TableCall) :
    DescriptorInv (c.run ops v).state := by
  cases c with
  | «open» cwd owner name create => exact inv.vfsOpen ops cwd owner name create
  | pipe owner => exact inv.vfsPipe owner
  | dup owner number => exact inv.vfsDup owner number
  | dup2 owner source destination => exact inv.vfsDup2 owner source destination
  | close owner number => exact inv.vfsClose owner number
  | closeAll owner => exact inv.vfsCloseAll owner
  | inheritStandard parent child => exact inv.vfsInheritStandard parent child
  | fork parent child => exact inv.vfsFork parent child

theorem installMount_tables (path type : Path) (kind : FsKind) (removable : Bool)
    (v : VfsState σ) :
    (installMount path type kind removable v).2.descriptors=v.descriptors ∧
      (installMount path type kind removable v).2.openFiles=v.openFiles ∧
      (installMount path type kind removable v).2.pipes=v.pipes := by
  unfold installMount
  split
  · exact ⟨rfl,rfl,rfl⟩
  · split <;> exact ⟨rfl,rfl,rfl⟩

theorem vfsInit_inv (b : σ) : DescriptorInv (vfsInit b) := by
  unfold vfsInit
  apply DescriptorInv.ensureStandardStreams
  have hblank (q : VfsFd → Bool) (hq : q blankFd=false) :
      tally q (fun _ : SlotRef => blankFd)=0 := tally_eq_zero (fun _ => hq)
  generalize hw : (installMount _ _ _ _ _).2=w
  have htables := installMount_tables "/dev".toUTF8.toList "devfs".toUTF8.toList .devfs false
    (⟨fun _ => blankFd,fun _ => ⟨false,0,0⟩,fun _ => ⟨false,false,[],[],.ramfs⟩,
      fun _ => ⟨false,0,0,0,0,0,fun _ => 0⟩,b⟩ : VfsState σ)
  rw [hw] at htables
  obtain ⟨hd,hf,hp⟩ := htables
  refine ⟨?_,?_,?_,?_,?_,?_⟩
  · intro i j hi
    simp [hd,blankFd] at hi
  · intro k
    simp [hd,hf,hblank (holdsFile k) rfl]
  · intro k
    simp [hd,hf,hblank (holdsFile k) rfl]
  · intro k
    simp [hd,hp,hblank (holdsEnd k .read) rfl]
  · intro k
    simp [hd,hp,hblank (holdsEnd k .write) rfl]
  · intro k
    simp [hp]

/-- In every state reached from `vfs_init` the tables count their own references. -/
theorem descriptor_table_invariant (b : σ) (calls : List TableCall) :
    DescriptorInv (runCalls ops (vfsInit b) calls) := by
  have h : ∀ v : VfsState σ, DescriptorInv v → DescriptorInv (runCalls ops v calls) := by
    induction calls with
    | nil => exact fun v inv => inv
    | cons c cs ih => exact fun v inv => ih _ (inv.run ops c)
  exact h _ (vfsInit_inv b)

end Runs

end ConeOS.Vfs
