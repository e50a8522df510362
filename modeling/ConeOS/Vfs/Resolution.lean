import ConeOS.Vfs.Mount
import ConeOS.Vfs.TableEdit

namespace ConeOS.Vfs

open ConeOS.Library Function List

section Tables

variable {σ : Type}

/-- Every open file that a descriptor of `w` holds is held in `v` by a descriptor with the
same name and device, under the same mounts. -/
structure Carried (v w : VfsState σ) : Prop where
  mounts : w.mounts=v.mounts
  slots : ∀ i k, holdsFile k (w.descriptors i)=true →
    ∃ j, holdsFile k (v.descriptors j)=true ∧ (v.descriptors j).name=(w.descriptors i).name ∧
      (v.descriptors j).device=(w.descriptors i).device ∧
      (v.descriptors j).pipeMode=(w.descriptors i).pipeMode

variable {u v w : VfsState σ}

theorem holdsFile_iff {k : FileRef} {fd : VfsFd} :
    holdsFile k fd=true ↔ fd.used=true ∧ fd.file=some k := by
  simp [holdsFile]

theorem Carried.refl (v : VfsState σ) : Carried v v :=
  ⟨rfl,fun i _ h => ⟨i,h,rfl,rfl,rfl⟩⟩

theorem Carried.trans (h : Carried u v) (h' : Carried v w) : Carried u w := by
  refine ⟨h'.mounts.trans h.mounts,?_⟩
  intro i k hk
  obtain ⟨j,hj,hname,hdevice,hmode⟩ := h'.slots i k hk
  obtain ⟨l,hl,hname',hdevice',hmode'⟩ := h.slots j k hj
  exact ⟨l,hl,hname'.trans hname,hdevice'.trans hdevice,hmode'.trans hmode⟩

theorem Carried.of_descriptors (hm : w.mounts=v.mounts) (hd : w.descriptors=v.descriptors) :
    Carried v w :=
  ⟨hm,fun i k hk => ⟨i,by rwa [← hd],by rw [hd],by rw [hd],by rw [hd]⟩⟩

theorem Carried.withBackend (v : VfsState σ) (b : σ) : Carried v { v with backend := b } :=
  Carried.of_descriptors rfl rfl

theorem Carried.setSlot (v : VfsState σ) (i : SlotRef) (fd : VfsFd)
    (h : ∀ k, holdsFile k fd=true → ∃ j, holdsFile k (v.descriptors j)=true ∧
      (v.descriptors j).name=fd.name ∧ (v.descriptors j).device=fd.device ∧
      (v.descriptors j).pipeMode=fd.pipeMode) :
    Carried v (setSlot i fd v) := by
  refine ⟨rfl,?_⟩
  intro i' k hk
  by_cases hi : i'=i
  · subst hi
    simp only [setSlot_descriptors,update_self] at hk ⊢
    exact h k hk
  · simp only [setSlot_descriptors,update_of_ne hi] at hk ⊢
    exact ⟨i',hk,rfl,rfl,rfl⟩

@[simp] theorem openFileRetainLocked_mounts (file : Option FileRef) (v : VfsState σ) :
    (openFileRetainLocked file v).mounts=v.mounts := by
  cases file <;> rfl

@[simp] theorem openFileReleaseLocked_mounts (file : Option FileRef) (v : VfsState σ) :
    (openFileReleaseLocked file v).mounts=v.mounts := by
  unfold openFileReleaseLocked
  cases file
  · rfl
  · dsimp only
    split_ifs <;> rfl

@[simp] theorem pipeAddEnd_mounts (pipe : Option PipeRef) (mode : PipeMode) (v : VfsState σ) :
    (pipeAddEnd pipe mode v).mounts=v.mounts := by
  cases pipe <;> cases mode <;> rfl

@[simp] theorem pipeDropReferenceLocked_mounts (pipe : Option PipeRef) (mode : PipeMode)
    (v : VfsState σ) : (pipeDropReferenceLocked pipe mode v).mounts=v.mounts := by
  unfold pipeDropReferenceLocked
  cases pipe
  · rfl
  · dsimp only
    split_ifs <;> rfl

theorem Carried.ensureStandardStreams (owner : Nat) (v : VfsState σ) :
    Carried v (ensureStandardStreams owner v) := by
  refine ensureStandardStreams_rule owner ?_ (Carried.refl v)
  intro w n i hw _ _
  exact hw.trans (Carried.setSlot w _ _ (by simp [holdsFile]))

theorem Carried.closeSlot (i : SlotRef) (v : VfsState σ) : Carried v (closeSlot i v) := by
  unfold Vfs.closeSlot
  refine Carried.trans (v := openFileReleaseLocked (v.descriptors i).file
    (pipeDropReferenceLocked (v.descriptors i).pipe (v.descriptors i).pipeMode v)) ?_ ?_
  · exact Carried.of_descriptors (by simp) (by simp)
  · exact Carried.setSlot _ i _ (by simp [holdsFile])

theorem Carried.edited {a : Bool} (h : Edited a v w) : Carried v w := by
  induction h with
  | refl => exact Carried.refl v
  | stream i owner n _ ih => exact ih.trans (Carried.setSlot _ i _ (by simp [holdsFile]))
  | copy target source _ hfd ih =>
    refine ih.trans (Carried.setSlot _ target _ ?_)
    intro k hk
    rw [holdsFile_iff] at hk
    exact ⟨source,holdsFile_iff.mpr ⟨hfd.used,hfd.file.trans hk.2⟩,hfd.name,hfd.device,hfd.pipeMode⟩
  | retain file _ ih => exact ih.trans (Carried.of_descriptors (by simp) (by simp))
  | addEnd pipe mode _ ih => exact ih.trans (Carried.of_descriptors (by simp) (by simp))
  | close i _ _ ih => exact ih.trans (Carried.closeSlot i _)

theorem Carried.vfsPipe (owner : Nat) (v : VfsState σ) : Carried v (vfsPipe owner v).1.state := by
  unfold Vfs.vfsPipe
  dsimp only
  refine Carried.trans (Carried.ensureStandardStreams owner v) ?_
  generalize Vfs.ensureStandardStreams owner v=w
  split
  next k n0 n1 i0 i1 _ _ _ =>
    let fresh : VfsPipe := ⟨true,1,1,0,0,0,(w.pipes k).data⟩
    have hpipe : Carried w { w with pipes := update w.pipes k fresh } :=
      Carried.of_descriptors rfl rfl
    have hread := hpipe.trans (Carried.setSlot _ i0
      ⟨true,owner,n0,"[pipe]".toUTF8.toList,none,.none,some k,.read⟩ (by simp [holdsFile]))
    exact hread.trans (Carried.setSlot _ i1
      ⟨true,owner,n1,"[pipe]".toUTF8.toList,none,.none,some k,.write⟩ (by simp [holdsFile]))
  · exact Carried.refl w

/-- What a call of the descriptor table can leave: open files that were held before, under
their old name and device, and at most a new one held by one descriptor. -/
structure TableStep (v w : VfsState σ) : Prop where
  mounts : w.mounts=v.mounts
  slots : ∀ i k, holdsFile k (w.descriptors i)=true →
    (∃ j, holdsFile k (v.descriptors j)=true ∧
      (v.descriptors j).name=(w.descriptors i).name ∧
      (v.descriptors j).device=(w.descriptors i).device ∧
      (v.descriptors j).pipeMode=(w.descriptors i).pipeMode) ∨
    ((v.openFiles k).used=false ∧ ∀ j, holdsFile k (w.descriptors j)=true → j=i)

theorem Carried.step (h : Carried v w) : TableStep v w :=
  ⟨h.mounts,fun i k hk => Or.inl (h.slots i k hk)⟩

theorem ensureStandardStreams_openFiles (owner : Nat) (v : VfsState σ) :
    (ensureStandardStreams owner v).openFiles=v.openFiles :=
  ensureStandardStreams_rule (P := fun w => w.openFiles=v.openFiles) owner
    (fun _ _ _ hw _ _ => hw) rfl

/-- The interrupt-locked part of open, from the state in which it starts. -/
theorem TableStep.openDescriptor (inv : DescriptorInv v) (owner : Nat) (name : Path)
    (device : DevfsDevice) : TableStep v (openDescriptor owner name device v).state := by
  unfold Vfs.openDescriptor
  split
  · exact (Carried.refl v).step
  split
  next number _ _ _ i k w hi hk =>
    obtain ⟨hunused,rfl⟩ := allocateOpenFileLocked_some hk
    refine ⟨rfl,?_⟩
    have hnone : ∀ j, holdsFile k (v.descriptors j)=false := by
      intro j
      by_contra hj
      rw [Bool.not_eq_false] at hj
      have := (inv.fileUsed k).mpr (tally_pos hj)
      rw [hunused] at this
      cases this
    intro i' k' hk'
    dsimp only at hk' ⊢
    by_cases hi' : i'=i
    · subst hi'
      simp only [setSlot_descriptors,update_self,holdsFile_iff,Option.some.injEq,true_and] at hk'
      subst hk'
      refine Or.inr ⟨hunused,?_⟩
      intro j hj
      by_contra hne
      simp only [setSlot_descriptors,update_of_ne hne] at hj
      rw [hnone j] at hj
      cases hj
    · simp only [setSlot_descriptors,update_of_ne hi'] at hk' ⊢
      exact Or.inl ⟨i',hk',rfl,rfl,rfl⟩
  next k w hi hk =>
    obtain ⟨-,rfl⟩ := allocateOpenFileLocked_some hk
    exact (Carried.of_descriptors (by simp) (by simp)).step
  next w hk =>
    rw [allocateOpenFileLocked_none hk]
    exact (Carried.refl v).step

theorem TableStep.vfsOpen (inv : DescriptorInv v) (ops : FsKind → FsOps σ) (cwd : Option Path)
    (owner : Nat) (name : Path) (create : Bool) :
    TableStep v (vfsOpen ops cwd owner name create v).state := by
  unfold Vfs.vfsOpen
  split
  · exact (Carried.refl v).step
  split
  · exact (Carried.refl v).step
  next path _ =>
  dsimp only
  split
  next b _ => exact (Carried.withBackend v b).step
  next b _ =>
    have hstart : Carried v (ensureStandardStreams owner { v with backend := b }) :=
      (Carried.withBackend v b).trans (Carried.ensureStandardStreams owner _)
    have hfiles := ensureStandardStreams_openFiles owner { v with backend := b }
    have hopen := TableStep.openDescriptor ((inv.withBackend b).ensureStandardStreams owner) owner
      path
    refine ⟨(hopen _).mounts.trans hstart.mounts,?_⟩
    intro i k hk
    rcases (hopen _).slots i k hk with ⟨j,hj,hname,hdevice,hmode⟩ | ⟨hunused,honly⟩
    · obtain ⟨l,hl,hname',hdevice',hmode'⟩ := hstart.slots j k hj
      exact Or.inl ⟨l,hl,hname'.trans hname,hdevice'.trans hdevice,hmode'.trans hmode⟩
    · rw [hfiles] at hunused
      exact Or.inr ⟨hunused,honly⟩

theorem TableStep.run (inv : DescriptorInv v) (ops : FsKind → FsOps σ) (c : TableCall) :
    TableStep v (c.run ops v).state := by
  cases c with
  | «open» cwd owner name create => exact TableStep.vfsOpen inv ops cwd owner name create
  | pipe owner => exact (Carried.vfsPipe owner v).step
  | dup owner number => exact (Carried.edited (Edited.vfsDup (a := true) owner number v)).step
  | dup2 owner source destination =>
    exact (Carried.edited (Edited.vfsDup2 owner source destination v)).step
  | close owner number => exact (Carried.edited (Edited.vfsClose owner number v)).step
  | closeAll owner => exact (Carried.edited (Edited.vfsCloseAll owner v)).step
  | inheritStandard parent child =>
    exact (Carried.edited (Edited.vfsInheritStandard parent child v)).step
  | fork parent child => exact (Carried.edited (Edited.vfsFork parent child v)).step

end Tables

/-- The calls of any processes that open, copy, mount and unmount; `files` stands for what
reading and writing does to the filesystems in between. -/
inductive MountCall (σ : Type)
  | table (c : TableCall)
  | files (b : σ)
  | mount (cwd : Option Path) (type target : Path)
  | unmount (cwd : Option Path) (cwds : List Path) (target : Path)

/-- The tables, with the operations and the backend path that were chosen when each open
file was opened. -/
structure Mounting (σ : Type) where
  vfs : VfsState σ
  chosen : FileRef → FsKind × Path

section Runs

variable {σ : Type} (ops : FsKind → FsOps σ) (fs : MountOps σ) {cwd : Option Path}
  {type target absolute : Path} {i : SlotRef} {cwds : List Path}

/-- Records the choice of `vfs_open` for a file that a call has just opened. -/
def noteOpened (v w : VfsState σ) (chosen : FileRef → FsKind × Path) (k : FileRef) :
    FsKind × Path :=
  if (v.openFiles k).used then chosen k
  else
    match firstIndex (fun i => holdsFile k (w.descriptors i)) with
    | none => chosen k
    | some i => pathOps v (w.descriptors i).name

def MountCall.run (s : Mounting σ) : MountCall σ → Mounting σ
  | .table c => ⟨(c.run ops s.vfs).state,noteOpened s.vfs (c.run ops s.vfs).state s.chosen⟩
  | .files b => { s with vfs := { s.vfs with backend := b } }
  | .mount cwd type target => { s with vfs := (vfsMount fs cwd type target s.vfs).2 }
  | .unmount cwd cwds target => { s with vfs := (vfsUnmount fs cwd cwds target s.vfs).2 }

def runMounts (s : Mounting σ) (calls : List (MountCall σ)) : Mounting σ :=
  calls.foldl (MountCall.run ops fs) s

/-- All that `vfs_mount` asks of the resolved path. -/
def mountable (cwd : Option Path) (type absolute : Path) (v : VfsState σ) : Bool :=
  type == fat32Type && fs.fat32Mounted v.backend && absolute != [slash] &&
    vfsIsDirectory fs cwd absolute v &&
    (List.finRange vfsMaxMounts).all (fun m => !((v.mounts m).used &&
      (v.mounts m).path == absolute)) &&
    (List.finRange vfsMaxMounts).any (fun m => !(v.mounts m).used)

/-- All that `vfs_unmount` asks of the resolved path. -/
def unmountable (cwds : List Path) (absolute : Path) (v : VfsState σ) : Bool :=
  absolute != [slash] && (List.finRange vfsMaxMounts).any (fun m => (v.mounts m).used &&
    (v.mounts m).path == absolute && !mountBusy cwds absolute m v &&
      (fs.sync (v.mounts m).ops v.backend).1)

/-- A mount that no open regular file lies under, unless a deeper mount holds it; an unmount
that no descriptor below number 3 lies under. -/
def MountCall.respects (v : VfsState σ) : MountCall σ → Bool
  | .table _ => true
  | .files _ => true
  | .mount cwd type target =>
    match resolvePath cwd target fsPathMax with
    | none => true
    | some absolute =>
      !mountable fs cwd type absolute v ||
        (List.finRange vfsDescriptorSlots).all (fun i =>
          !(v.descriptors i).isRegular || !pathHasPrefix (v.descriptors i).name absolute ||
            (List.finRange vfsMaxMounts).any (fun m =>
              (v.mounts m).used && pathHasPrefix (v.descriptors i).name (v.mounts m).path &&
                decide (absolute.length<(v.mounts m).path.length)))
  | .unmount cwd cwds target =>
    match resolvePath cwd target fsPathMax with
    | none => true
    | some absolute =>
      !unmountable fs cwds absolute v ||
        (List.finRange vfsDescriptorSlots).all (fun i =>
          !((v.descriptors i).used && decide ((v.descriptors i).number<3)) ||
            !pathHasPrefix (v.descriptors i).name absolute)

/-- Every call of the run respects the open files of the state it is made in. -/
def respectsAll (s : Mounting σ) : List (MountCall σ) → Bool
  | [] => true
  | c :: cs => c.respects fs s.vfs && respectsAll (c.run ops fs s) cs

/-- The start, before anything is open. -/
def Mounting.boot (b : σ) : Mounting σ := ⟨vfsInit b,fun _ => (.ramfs, [])⟩

/-- The tables count their references, the mounts are told apart by their paths, and every
open regular file still resolves to what was chosen for it. -/
structure KeepsFiles (s : Mounting σ) : Prop where
  inv : DescriptorInv s.vfs
  distinct : MountsDistinct s.vfs
  kept : ∀ i k, holdsFile k (s.vfs.descriptors i)=true →
    (s.vfs.descriptors i).isRegular=true →
    descriptorOps s.vfs (s.vfs.descriptors i)=s.chosen k

variable {ops fs} {v w : VfsState σ}

theorem pathOps_mounts (h : w.mounts=v.mounts) (path : Path) : pathOps w path=pathOps v path := by
  unfold pathOps findMount bestMount
  rw [h]

theorem isRegular_of_holdsFile {k : FileRef} {fd : VfsFd} (h : holdsFile k fd=true) :
    fd.isRegular=(fd.device == .none && fd.pipeMode == .none) := by
  obtain ⟨hu,hf⟩ := holdsFile_iff.mp h
  simp [VfsFd.isRegular,hu,hf]

theorem KeepsFiles.table {s : Mounting σ} (h : KeepsFiles s) (c : TableCall) :
    KeepsFiles ((MountCall.table c).run ops fs s) := by
  have hstep := TableStep.run h.inv ops c
  refine ⟨h.inv.run ops c,?_,?_⟩
  · intro i j
    simp only [MountCall.run,hstep.mounts]
    exact h.distinct i j
  intro i k hk hreg
  simp only [MountCall.run] at hk hreg ⊢
  have hsame := pathOps_mounts hstep.mounts ((c.run ops s.vfs).state.descriptors i).name
  unfold descriptorOps noteOpened
  rw [hsame]
  rcases hstep.slots i k hk with ⟨j,hj,hname,hdevice,hmode⟩ | ⟨hunused,honly⟩
  · -- an old file, under the same name
    have hused : (s.vfs.openFiles k).used=true := (h.inv.fileUsed k).mpr (tally_pos hj)
    have hreg' : (s.vfs.descriptors j).isRegular=true := by
      rw [isRegular_of_holdsFile hj,hdevice,hmode,← isRegular_of_holdsFile hk]
      exact hreg
    rw [if_pos hused,← hname]
    exact h.kept j k hj hreg'
  -- the file that this call opened
  rw [hunused,if_neg Bool.false_ne_true]
  cases hfirst : firstIndex
      (fun i => holdsFile k ((c.run ops s.vfs).state.descriptors i)) with
  | none =>
    have hnot := firstIndex_none hfirst i
    rw [hk] at hnot
    cases hnot
  | some j => rw [honly j (firstIndex_some hfirst)]

theorem MountsDistinct.installMount (h : MountsDistinct v) (path type : Path) (kind : FsKind)
    (removable : Bool) : MountsDistinct (installMount path type kind removable v).2 := by
  unfold Vfs.installMount
  split
  · exact h
  next hfirst =>
    split
    · exact h
    next n hn =>
      have hother : ∀ j, (v.mounts j).used=true → (v.mounts j).path≠path := by
        intro j hj hpath
        have := firstIndex_none hfirst j
        simp [hj,hpath] at this
      intro i j hi hj hpath
      dsimp only at hi hj hpath
      by_cases hin : i=n <;> by_cases hjn : j=n
      · rw [hin,hjn]
      · subst hin
        simp only [update_self,update_of_ne hjn] at hj hpath
        exact absurd hpath.symm (hother j hj)
      · subst hjn
        simp only [update_self,update_of_ne hin] at hi hpath
        exact absurd hpath (hother i hi)
      · simp only [update_of_ne hin,update_of_ne hjn] at hi hj hpath
        exact h i j hi hj hpath

theorem MountsDistinct.removeMount (h : MountsDistinct v) (n : Fin vfsMaxMounts) (b : σ) :
    MountsDistinct (removeMount n { v with backend := b }) := by
  intro i j hi hj hpath
  simp only [Vfs.removeMount] at hi hj hpath
  by_cases hin : i=n
  · subst hin
    rw [update_self] at hi
    cases hi
  by_cases hjn : j=n
  · subst hjn
    rw [update_self] at hj
    cases hj
  rw [update_of_ne hin] at hi hpath
  rw [update_of_ne hjn] at hj hpath
  exact h i j hi hj hpath

/-- What a successful mount does: a new entry in an unused place, at a path that no other
mount has. -/
theorem vfsMount_some
    (h : (vfsMount fs cwd type target v).1=true) :
    ∃ absolute n, resolvePath cwd target fsPathMax=some absolute ∧ (v.mounts n).used=false ∧
      (∀ j, (v.mounts j).used=true → (v.mounts j).path≠absolute) ∧
      mountable fs cwd type absolute v=true ∧
      (vfsMount fs cwd type target v).2 =
        { v with mounts := update v.mounts n ⟨true,true,absolute,fat32Type,.fat32⟩ } ∧
      (vfsMount fs cwd type target v).2=(installMount absolute fat32Type .fat32 true v).2 := by
  unfold vfsMount at h ⊢
  split at h
  · cases h
  next hok =>
    rw [if_neg hok]
    split at h
    · cases h
    next absolute habs =>
      split at h
      · cases h
      next hdir =>
        rw [if_neg hdir]
        refine ⟨absolute,?_⟩
        unfold installMount at h ⊢
        split at h
        · cases h
        next hfirst =>
          split at h
          · cases h
          next n hn =>
            have hunused : (v.mounts n).used=false := by simpa using firstIndex_some hn
            have hother (j : Fin vfsMaxMounts) (hj : (v.mounts j).used=true) :
                (v.mounts j).path≠absolute := by
              have := firstIndex_none hfirst j
              simpa [hj] using this
            simp only [not_or,not_not,Bool.not_eq_true',Bool.not_eq_false] at hok hdir
            refine ⟨n,habs,hunused,hother,?_,rfl,rfl⟩
            simp only [mountable,Bool.and_eq_true,all_eq_true,any_eq_true]
            refine ⟨⟨⟨⟨⟨by simpa using hok.1,hok.2⟩,by simpa using hdir.1⟩,hdir.2⟩,?_⟩,
              n,mem_finRange n,by simpa using hunused⟩
            intro j _
            rw [Bool.not_eq_true']
            exact firstIndex_none hfirst j

theorem vfsMount_none
    (h : (vfsMount fs cwd type target v).1=false) : (vfsMount fs cwd type target v).2=v := by
  unfold vfsMount at h ⊢
  split at h
  next hbad => rw [if_pos hbad]
  next hok =>
    rw [if_neg hok]
    split at h
    · rfl
    split at h
    next hbad => rw [if_pos hbad]
    next hdir =>
      rw [if_neg hdir]
      unfold installMount at h ⊢
      split at h
      · rfl
      · split at h
        · rfl
        · cases h

theorem respects_mount
    (h : (MountCall.mount cwd type target).respects fs v=true)
    (hok : mountable fs cwd type absolute v=true)
    (habs : resolvePath cwd target fsPathMax=some absolute)
    (hreg : (v.descriptors i).isRegular=true)
    (hin : pathHasPrefix (v.descriptors i).name absolute=true) :
    ∃ m, Covers v (v.descriptors i).name m ∧ absolute.length<(v.mounts m).path.length := by
  simp only [MountCall.respects,habs,hok,Bool.not_true,Bool.false_or,all_eq_true] at h
  have hi := h i (mem_finRange i)
  simp only [hreg,hin,Bool.not_true,Bool.false_or,any_eq_true,Bool.and_eq_true,
    decide_eq_true_eq] at hi
  obtain ⟨m,-,hcover,hlong⟩ := hi
  exact ⟨m,hcover,hlong⟩

theorem KeepsFiles.mount {s : Mounting σ} (h : KeepsFiles s) (cwd : Option Path)
    (type target : Path) (hr : (MountCall.mount cwd type target).respects fs s.vfs=true) :
    KeepsFiles ((MountCall.mount cwd type target).run ops fs s) := by
  cases hok : (vfsMount fs cwd type target s.vfs).1 with
  | false =>
    simp only [MountCall.run,vfsMount_none hok]
    exact h
  | true =>
    obtain ⟨absolute,n,habs,hfree,-,hable,hw,hinstall⟩ := vfsMount_some hok
    have hdistinct : MountsDistinct (vfsMount fs cwd type target s.vfs).2 := by
      rw [hinstall]
      exact h.distinct.installMount _ _ _ _
    simp only [MountCall.run]
    refine ⟨?_,hdistinct,?_⟩
    · rw [hw]
      exact ⟨h.inv.distinct,h.inv.references,h.inv.fileUsed,h.inv.readers,h.inv.writers,
        h.inv.pipeUsed⟩
    intro i k hk hreg
    rw [hw] at hk hreg hdistinct ⊢
    refine Eq.trans ?_ (h.kept i k hk hreg)
    apply pathOps_congr hdistinct
    · intro m hm
      have hne : m≠n := by
        rintro rfl
        have := (bestMount_covers hm).1
        rw [hfree] at this
        cases this
      exact update_of_ne hne _ _
    intro j hj
    unfold Covers at hj
    dsimp only at hj ⊢
    by_cases hjn : j=n
    · subst hjn
      rw [update_self] at hj ⊢
      obtain ⟨m,hm,hlong⟩ := respects_mount hr hable habs hreg hj.2
      obtain ⟨best,hbest,hle⟩ := bestMount_longest hm
      exact ⟨best,hbest,hlong.le.trans hle⟩
    · rw [update_of_ne hjn] at hj ⊢
      exact bestMount_longest hj

/-- What a successful unmount has checked and does. -/
theorem vfsUnmount_some
    (h : (vfsUnmount fs cwd cwds target v).1=true) :
    ∃ absolute n b, resolvePath cwd target fsPathMax=some absolute ∧
      (v.mounts n).used=true ∧ (v.mounts n).path=absolute ∧
      mountBusy cwds absolute n v=false ∧ unmountable fs cwds absolute v=true ∧
      (vfsUnmount fs cwd cwds target v).2=removeMount n { v with backend := b } := by
  unfold vfsUnmount at h ⊢
  split at h
  · cases h
  next absolute habs =>
    split at h
    · cases h
    next hroot =>
      rw [if_neg hroot]
      split at h
      · cases h
      next n hn =>
        have hpath := firstIndex_some hn
        simp only [Bool.and_eq_true,beq_iff_eq] at hpath
        split at h
        · cases h
        next hfree =>
          rw [if_neg hfree]
          split at h
          · cases h
          next b hsync =>
            have hidle : mountBusy cwds absolute n v=false := by simpa using hfree
            refine ⟨absolute,n,b,habs,hpath.1,hpath.2,hidle,?_,rfl⟩
            simp only [unmountable,Bool.and_eq_true,any_eq_true]
            exact ⟨by simpa using hroot,n,mem_finRange n,
              ⟨⟨hpath.1,by simpa using hpath.2⟩,by simpa using hidle⟩,by rw [hsync]⟩

theorem vfsUnmount_none
    (h : (vfsUnmount fs cwd cwds target v).1=false) :
    ∃ b, (vfsUnmount fs cwd cwds target v).2 = { v with backend := b } := by
  unfold vfsUnmount at h ⊢
  split at h
  · exact ⟨v.backend,rfl⟩
  split at h
  next hroot => exact ⟨v.backend,by rw [if_pos hroot]⟩
  next hroot =>
    rw [if_neg hroot]
    split at h
    · exact ⟨v.backend,rfl⟩
    split at h
    next hbusy => exact ⟨v.backend,by rw [if_pos hbusy]⟩
    next hfree =>
      rw [if_neg hfree]
      split at h
      next b _ => exact ⟨b,rfl⟩
      · cases h

/-- A successful unmount that respects the standard streams finds no descriptor inside. -/
theorem vfsUnmount_outside
    (hr : (MountCall.unmount cwd cwds target).respects fs v=true)
    (hok : (vfsUnmount fs cwd cwds target v).1=true)
    (habs : resolvePath cwd target fsPathMax=some absolute)
    (hu : (v.descriptors i).used=true) :
    pathHasPrefix (v.descriptors i).name absolute=false := by
  obtain ⟨absolute',n,b,habs',-,-,hbusy,hable,-⟩ := vfsUnmount_some hok
  rw [habs,Option.some.injEq] at habs'
  subst habs'
  by_cases hnumber : (v.descriptors i).number<3
  · simp only [MountCall.respects,habs,hable,Bool.not_true,Bool.false_or,all_eq_true] at hr
    simpa [hu,hnumber] using hr i (mem_finRange i)
  · simp only [mountBusy,Bool.or_eq_false_iff,any_eq_false] at hbusy
    have := hbusy.2 i (mem_finRange i)
    simpa [hu,Int.not_lt.mp hnumber] using this

theorem KeepsFiles.unmount {s : Mounting σ} (h : KeepsFiles s) (cwd : Option Path)
    (cwds : List Path) (target : Path)
    (hr : (MountCall.unmount cwd cwds target).respects fs s.vfs=true) :
    KeepsFiles ((MountCall.unmount cwd cwds target).run ops fs s) := by
  cases hok : (vfsUnmount fs cwd cwds target s.vfs).1 with
  | false =>
    obtain ⟨b,hb⟩ := vfsUnmount_none hok
    simp only [MountCall.run,hb]
    exact ⟨h.inv.withBackend b,h.distinct,h.kept⟩
  | true =>
    obtain ⟨absolute,n,b,habs,-,hpath,-,-,hw⟩ := vfsUnmount_some hok
    have hdistinct := h.distinct.removeMount n b
    simp only [MountCall.run,hw]
    refine ⟨?_,hdistinct,?_⟩
    · exact ⟨h.inv.distinct,h.inv.references,h.inv.fileUsed,h.inv.readers,h.inv.writers,
        h.inv.pipeUsed⟩
    intro i k hk hreg
    refine Eq.trans ?_ (h.kept i k hk hreg)
    have hout := vfsUnmount_outside hr hok habs (holdsFile_iff.mp hk).1
    have hne : ∀ m, Covers s.vfs (s.vfs.descriptors i).name m → m≠n := by
      rintro m hm rfl
      rw [← hpath] at hout
      have := hm.2.symm.trans hout
      cases this
    apply pathOps_congr hdistinct
    · intro m hm
      exact update_of_ne (hne m (bestMount_covers hm)) _ _
    intro j hj
    unfold Covers removeMount at hj
    unfold removeMount
    dsimp only at hj ⊢
    by_cases hjn : j=n
    · subst hjn
      rw [update_self] at hj
      cases hj.1
    · rw [update_of_ne hjn] at hj ⊢
      exact bestMount_longest hj

theorem KeepsFiles.run {s : Mounting σ} (h : KeepsFiles s) (c : MountCall σ)
    (hr : c.respects fs s.vfs=true) : KeepsFiles (c.run ops fs s) := by
  cases c with
  | table c => exact h.table c
  | files b => exact ⟨h.inv.withBackend b,h.distinct,h.kept⟩
  | mount cwd type target => exact h.mount cwd type target hr
  | unmount cwd cwds target => exact h.unmount cwd cwds target hr

theorem KeepsFiles.runMounts {s : Mounting σ} (h : KeepsFiles s) (calls : List (MountCall σ))
    (hr : respectsAll ops fs s calls=true) : KeepsFiles (runMounts ops fs s calls) := by
  induction calls generalizing s with
  | nil => exact h
  | cons c cs ih =>
    simp only [respectsAll,Bool.and_eq_true] at hr
    exact ih (h.run c hr.1) hr.2

theorem KeepsFiles.boot (b : σ) : KeepsFiles (Mounting.boot b) := by
  refine ⟨vfsInit_inv b,?_,?_⟩
  · unfold Mounting.boot vfsInit
    dsimp only
    intro i j
    rw [(Carried.ensureStandardStreams 0 _).mounts]
    revert i j
    apply MountsDistinct.installMount
    intro i j hi
    cases hi
  intro i k hk
  -- the standard streams of the kernel hold no file
  have hnone : ∀ i, (holdsFile k ((vfsInit b).descriptors i))=false := by
    intro i
    by_contra hi
    rw [Bool.not_eq_false] at hi
    unfold vfsInit at hi
    dsimp only at hi
    generalize hw : (installMount _ _ _ _ _).2=w at hi
    obtain ⟨j,hj,-⟩ := (Carried.ensureStandardStreams 0 w).slots i k hi
    rw [← hw,(installMount_tables _ _ _ _ _).1] at hj
    cases hj
  have := hk.symm.trans (hnone i)
  cases this

end Runs

section Results

variable {σ : Type}

/-- In a run whose calls respect the open files, every open regular file is read, written and
measured where `vfs_open` found it, and an unmount takes no tree that a descriptor names. -/
theorem descriptors_keep_their_file (ops : FsKind → FsOps σ) (fs : MountOps σ) (b : σ)
    (calls : List (MountCall σ)) (hr : respectsAll ops fs (Mounting.boot b) calls=true) :
    let s := runMounts ops fs (Mounting.boot b) calls
    (∀ i k, (s.vfs.descriptors i).isRegular=true → (s.vfs.descriptors i).file=some k →
      descriptorOps s.vfs (s.vfs.descriptors i)=s.chosen k) ∧
    ∀ cwd cwds target absolute,
      (MountCall.unmount cwd cwds target).respects fs s.vfs=true →
      (vfsUnmount fs cwd cwds target s.vfs).1=true →
      resolvePath cwd target fsPathMax=some absolute →
      ∀ i, (s.vfs.descriptors i).used=true →
        pathHasPrefix (s.vfs.descriptors i).name absolute=false := by
  intro s
  have h : KeepsFiles s := (KeepsFiles.boot b).runMounts calls hr
  constructor
  · intro i k hreg hfile
    have hu : (s.vfs.descriptors i).used=true := by
      simp only [VfsFd.isRegular,Bool.and_eq_true] at hreg
      exact hreg.1.1.1
    exact h.kept i k (holdsFile_iff.mpr ⟨hu,hfile⟩) hreg
  · intro cwd cwds target absolute hrespects hok habs i hu
    exact vfsUnmount_outside hrespects hok habs hu

/-- A tree in which every file exists and every path is a directory. -/
def sampleOps : FsKind → FsOps Unit := fun _ => ⟨fun _ _ => some 0,fun _ b => (true,b),none⟩

def sampleMountOps : MountOps Unit := ⟨fun _ => true,fun _ _ _ => true,fun _ b => (true,b)⟩

def diskPath : Path := "/disk".toUTF8.toList

/-- Process 1 opens a file of the mounted tree. -/
def openOnDisk : List (MountCall Unit) :=
  [.mount none fat32Type diskPath,.table (.open none 1 "/disk/f".toUTF8.toList false)]

/-- While it is open, it is duplicated, a tree is mounted and unmounted beside it, and its own
tree stays. -/
def mountedBeside : List (MountCall Unit) :=
  openOnDisk ++ [.table (.dup 1 3),.mount none fat32Type "/usb".toUTF8.toList,
    .unmount none [] diskPath,.unmount none [] "/usb".toUTF8.toList]

set_option maxRecDepth 100000 in
theorem file_on_disk_keeps_its_mount :
    respectsAll sampleOps sampleMountOps (Mounting.boot ()) mountedBeside=true ∧
    let s := runMounts sampleOps sampleMountOps (Mounting.boot ()) mountedBeside
    (lookup s.vfs 1 4).isSome=true ∧
    ∀ i k, (s.vfs.descriptors i).isRegular=true → (s.vfs.descriptors i).file=some k →
      descriptorOps s.vfs (s.vfs.descriptors i)=s.chosen k := by
  have hr : respectsAll sampleOps sampleMountOps (Mounting.boot ()) mountedBeside=true := by
    decide +kernel
  exact ⟨hr,by decide +kernel,(descriptors_keep_their_file _ _ _ _ hr).1⟩

/-- Whether a descriptor is a regular file, where it resolves to, and what was chosen for it. -/
def resolutionOf (s : Mounting Unit) (owner : Nat) (number : Int) :
    Option (Bool × (FsKind × Path) × Option (FsKind × Path)) :=
  (lookup s.vfs owner number).map (fun i => ((s.vfs.descriptors i).isRegular,
    descriptorOps s.vfs (s.vfs.descriptors i), (s.vfs.descriptors i).file.map s.chosen))

set_option maxRecDepth 100000 in
/-- A file moved to number 1 does not keep its tree mounted. -/
theorem redirected_file_loses_its_mount :
    resolutionOf (runMounts sampleOps sampleMountOps (Mounting.boot ()) (openOnDisk ++
        [.table (.dup2 1 3 1),.table (.close 1 3),.unmount none [] diskPath])) 1 1 =
      some (true, (.ramfs, "/disk/f".toUTF8.toList), some (.fat32, "f".toUTF8.toList)) := by
  decide +kernel

end Results

end ConeOS.Vfs
