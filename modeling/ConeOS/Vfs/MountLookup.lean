import ConeOS.Vfs.Resolution
import ConeOS.Vfs.PathNormal

namespace ConeOS.Vfs

open ConeOS.Library Function List

/-- The mount path is the whole path or ends in it at a slash. -/
def HeldBy (path mount : Path) : Prop := path=mount ∨ ∃ rest, path=mount ++ slash :: rest

/-- Components with a slash between each two. -/
def joinPath : List Path → Path
  | [] => []
  | c :: cs => c ++ cs.flatMap (fun c => slash :: c)

section Components

variable {ms stack : List Path}

theorem pathHasPrefix_held {path mount : Path} :
    pathHasPrefix path mount=true ↔ HeldBy path mount := by
  rw [pathHasPrefix_iff,HeldBy]
  constructor
  · intro h
    obtain ⟨rest,hrest,hborder⟩ := h
    cases rest with
    | nil => exact .inl (by rw [hrest,append_nil])
    | cons c rest =>
      rw [List.head?_cons] at hborder
      have hc : c=slash := by simpa using hborder
      exact .inr ⟨rest,by rw [hrest,hc]⟩
  · intro h
    rcases h with rfl | ⟨rest,rfl⟩
    · exact ⟨[],(append_nil _).symm,.inl rfl⟩
    · exact ⟨slash :: rest,rfl,.inr rfl⟩

theorem components_append (p rest : Path) :
    components (p ++ slash :: rest)=components p ++ components rest := by
  induction p with
  | nil => simp [components]
  | cons c p ih =>
    rw [cons_append,components,components,ih]
    split_ifs
    · rfl
    · obtain ⟨q,qs,hq⟩ := exists_cons_of_ne_nil (components_ne_nil p)
      rw [hq]
      rfl

theorem printPath_concat (hms : ms≠[]) (rest : List Path) :
    printPath (ms ++ rest)=printPath ms ++ rest.flatMap (fun c => slash :: c) := by
  obtain ⟨c,cs,rfl⟩ := exists_cons_of_ne_nil hms
  rw [cons_append,printPath,printPath,← cons_append,flatMap_append]

theorem printPath_eq_root (h : ∀ c ∈ stack, IsComponent c)
    (hroot : printPath stack=[slash]) : stack=[] := by
  cases stack with
  | nil => rfl
  | cons c cs =>
    have hlen := congrArg List.length hroot
    have hc := length_pos_iff.mpr (h c mem_cons_self).ne_nil
    simp only [printPath,flatMap_cons,length_append,length_cons,length_nil] at hlen
    omega

/-- Below the root, the paths held by a mount are those whose components go on from it. -/
theorem heldBy_components (hms : ∀ c ∈ ms, IsComponent c) (hne : ms≠[])
    (hstack : ∀ c ∈ stack, IsComponent c) (h : HeldBy (printPath stack) (printPath ms)) :
    ∃ rest, stack=ms ++ rest := by
  have hstackne : stack≠[] := by
    rintro rfl
    have hhead := printPath_ne_nil ms
    rcases h with hsame | ⟨rest,hrest⟩
    · exact hne (printPath_eq_root hms hsame.symm)
    have hlen : ([slash] : Path).length=(printPath ms ++ slash :: rest).length :=
      congrArg List.length hrest
    have hpos := length_pos_iff.mpr hhead
    rw [length_append,length_singleton,length_cons] at hlen
    omega
  have hcs := components_printPath hstack hstackne
  rcases h with hsame | ⟨rest,hrest⟩
  · rw [hsame,components_printPath hms hne] at hcs
    exact ⟨[],by rw [append_nil,(List.cons.inj hcs).2]⟩
  · rw [hrest,components_append,components_printPath hms hne] at hcs
    exact ⟨components rest,(List.cons.inj hcs).2.symm⟩

theorem relative_join (hms : ms≠[]) (rest : List Path) :
    let tail := (printPath (ms ++ rest)).drop (printPath ms).length
    (if tail.head? = some slash then tail.tail else tail)=joinPath rest := by
  rw [printPath_concat hms,drop_left]
  cases rest with
  | nil => rfl
  | cons c cs => rfl

end Components

section Invariant

variable {σ : Type} {v : VfsState σ} {ops : FsKind → FsOps σ} {fs : MountOps σ}

/-- What every call keeps of the mount table: different paths, none of them the root. -/
structure MountsInv (v : VfsState σ) : Prop where
  table : DescriptorInv v
  distinct : MountsDistinct v
  notRoot : ∀ i, (v.mounts i).used=true → (v.mounts i).path≠[slash]

theorem vfsMount_notRoot {cwd : Option Path} {type target absolute : Path}
    (h : (vfsMount fs cwd type target v).1=true)
    (habs : resolvePath cwd target fsPathMax=some absolute) : absolute≠[slash] := by
  rintro rfl
  rw [vfsMount,habs] at h
  split_ifs at h
  simp at h

theorem MountsInv.mount (h : MountsInv v) (cwd : Option Path) (type target : Path) :
    MountsInv (vfsMount fs cwd type target v).2 := by
  cases hok : (vfsMount fs cwd type target v).1 with
  | false =>
    rw [vfsMount_none hok]
    exact h
  | true =>
    obtain ⟨absolute,n,habs,-,-,-,hw,hinstall⟩ := vfsMount_some hok
    refine ⟨?_,?_,?_⟩
    · rw [hw]
      exact ⟨h.table.distinct,h.table.references,h.table.fileUsed,h.table.readers,
        h.table.writers,h.table.pipeUsed⟩
    · rw [hinstall]
      exact h.distinct.installMount _ _ _ _
    intro i hi
    rw [hw] at hi ⊢
    by_cases hin : i=n
    · subst hin
      simpa using vfsMount_notRoot hok habs
    · simp only [update_of_ne hin] at hi ⊢
      exact h.notRoot i hi

theorem MountsInv.unmount (h : MountsInv v) (cwd : Option Path) (cwds : List Path)
    (target : Path) : MountsInv (vfsUnmount fs cwd cwds target v).2 := by
  cases hok : (vfsUnmount fs cwd cwds target v).1 with
  | false =>
    obtain ⟨b,hb⟩ := vfsUnmount_none hok
    rw [hb]
    exact ⟨h.table.withBackend b,h.distinct,h.notRoot⟩
  | true =>
    obtain ⟨absolute,n,b,-,-,-,-,-,hw⟩ := vfsUnmount_some hok
    rw [hw]
    refine ⟨?_,h.distinct.removeMount n b,?_⟩
    · exact ⟨h.table.distinct,h.table.references,h.table.fileUsed,h.table.readers,
        h.table.writers,h.table.pipeUsed⟩
    intro i hi
    simp only [removeMount] at hi ⊢
    by_cases hin : i=n
    · subst hin
      rw [update_self] at hi
      cases hi
    · simp only [update_of_ne hin] at hi ⊢
      exact h.notRoot i hi

theorem MountsInv.run {s : Mounting σ} (h : MountsInv s.vfs) (c : MountCall σ) :
    MountsInv (c.run ops fs s).vfs := by
  cases c with
  | table c =>
    have hmounts := (TableStep.run h.table ops c).mounts
    refine ⟨h.table.run ops c,?_,?_⟩
    · intro i j
      rw [MountCall.run,hmounts]
      exact h.distinct i j
    · intro i
      rw [MountCall.run,hmounts]
      exact h.notRoot i
  | files b => exact ⟨h.table.withBackend b,h.distinct,h.notRoot⟩
  | mount cwd type target => exact h.mount cwd type target
  | unmount cwd cwds target => exact h.unmount cwd cwds target

theorem MountsInv.runMounts {s : Mounting σ} (h : MountsInv s.vfs) (calls : List (MountCall σ)) :
    MountsInv (runMounts ops fs s calls).vfs := by
  induction calls generalizing s with
  | nil => exact h
  | cons c calls ih => exact ih (h.run c)

theorem installMount_notRoot {path type : Path} {kind : FsKind} {removable : Bool}
    (h : ∀ i, (v.mounts i).used=true → (v.mounts i).path≠[slash]) (hpath : path≠[slash])
    (i : Fin vfsMaxMounts) (hi : ((installMount path type kind removable v).2.mounts i).used=true) :
    ((installMount path type kind removable v).2.mounts i).path≠[slash] := by
  rw [installMount] at hi ⊢
  split at hi
  · exact h i hi
  split at hi
  · exact h i hi
  next n _ =>
    by_cases hin : i=n
    · subst hin
      simpa using hpath
    · simp only [update_of_ne hin] at hi ⊢
      exact h i hi

theorem MountsInv.boot (b : σ) : MountsInv (Mounting.boot b).vfs := by
  refine ⟨vfsInit_inv b,(KeepsFiles.boot b).distinct,?_⟩
  unfold Mounting.boot vfsInit
  dsimp only
  intro i
  rw [(Carried.ensureStandardStreams 0 _).mounts]
  revert i
  apply installMount_notRoot
  · intro j hj
    cases hj
  · decide +kernel

end Invariant

section Lookup

variable {σ : Type} {v : VfsState σ} {path : Path}

theorem covers_iff {i : Fin vfsMaxMounts} :
    Covers v path i ↔ (v.mounts i).used=true ∧ HeldBy path (v.mounts i).path := by
  rw [Covers,pathHasPrefix_held]

theorem bestMount_strict (hd : MountsDistinct v) {i j : Fin vfsMaxMounts}
    (hi : bestMount v path=some i) (hj : Covers v path j) (hne : j≠i) :
    (v.mounts j).path.length<(v.mounts i).path.length := by
  obtain ⟨b,hb,hle⟩ := bestMount_longest hj
  obtain rfl : i=b := Option.some.inj (hi.symm.trans hb)
  refine lt_of_le_of_ne hle ?_
  intro hlen
  have hcover := bestMount_covers hi
  exact hne (hd j i hj.1 hcover.1 (pathHasPrefix_same_length hj.2 hcover.2 hlen))

theorem pathOps_of_best {i : Fin vfsMaxMounts} (h : bestMount v path=some i) :
    pathOps v path=((v.mounts i).ops,
      let tail := path.drop (v.mounts i).path.length
      if tail.head? = some slash then tail.tail else tail) := by
  rw [pathOps,findMount,h]

theorem pathOps_of_none (h : bestMount v path=none) :
    pathOps v path=(.ramfs,path) := by
  rw [pathOps,findMount,h]

/-- The lookup of one normalised path in a table with normalised mount paths. -/
theorem pathOps_components
    (hroot : ∀ i, (v.mounts i).used=true → (v.mounts i).path≠[slash])
    (hnormal : ∀ i, (v.mounts i).used=true → Normalised (v.mounts i).path)
    {stack : List Path} (hstack : ∀ c ∈ stack, IsComponent c) {i : Fin vfsMaxMounts}
    (hi : bestMount v (printPath stack)=some i) :
    ∃ ms rest, (v.mounts i).path=printPath ms ∧ stack=ms ++ rest ∧
      pathOps v (printPath stack)=((v.mounts i).ops, joinPath rest) := by
  obtain ⟨hused,hheld⟩ := covers_iff.mp (bestMount_covers hi)
  obtain ⟨ms,hms,hpath⟩ := hnormal i hused
  have hne : ms≠[] := by
    rintro rfl
    exact hroot i hused hpath
  rw [hpath] at hheld
  obtain ⟨rest,rfl⟩ := heldBy_components hms hne hstack hheld
  refine ⟨ms,rest,hpath,rfl,?_⟩
  rw [pathOps_of_best hi,hpath]
  exact congrArg _ (relative_join hne rest)

/-- A mount that was just made and is taken away again leaves every path where it was. -/
theorem unmount_restores {fs : MountOps σ} (hd : MountsDistinct v) {cwd cwd' : Option Path}
    {type target target' : Path} {cwds : List Path} {w : VfsState σ}
    (hmount : (vfsMount fs cwd type target v).1=true)
    (hsame : w.mounts=(vfsMount fs cwd type target v).2.mounts)
    (htarget : resolvePath cwd' target' fsPathMax=resolvePath cwd target fsPathMax)
    (hunmount : (vfsUnmount fs cwd' cwds target' w).1=true) (path : Path) :
    pathOps (vfsUnmount fs cwd' cwds target' w).2 path=pathOps v path := by
  obtain ⟨absolute,n,habs,hunused,hother,-,hmounted,-⟩ := vfsMount_some hmount
  obtain ⟨absolute',m,b,habs',hused,hpath,-,-,hremoved⟩ := vfsUnmount_some hunmount
  rw [htarget,habs,Option.some.injEq] at habs'
  subst habs'
  have hnew : w.mounts=update v.mounts n
      ⟨true,true,absolute,fat32Type,.fat32⟩ := by
    rw [hsame,hmounted]
  have hm : m=n := by
    by_contra hne
    rw [hnew,update_of_ne hne] at hused hpath
    exact hother m hused hpath
  have htable : (vfsUnmount fs cwd' cwds target' w).2.mounts =
      update v.mounts n ⟨false,false,[],[],.ramfs⟩ := by
    rw [hremoved,removeMount,hm]
    dsimp only
    rw [hnew,update_idem]
  have hkept : ∀ i, (v.mounts i).used=true →
      (vfsUnmount fs cwd' cwds target' w).2.mounts i=v.mounts i := by
    intro i hi
    rw [htable]
    apply update_of_ne
    rintro rfl
    rw [hunused] at hi
    cases hi
  have hback : ∀ i, ((vfsUnmount fs cwd' cwds target' w).2.mounts i).used=true →
      (vfsUnmount fs cwd' cwds target' w).2.mounts i=v.mounts i := by
    intro i hi
    rw [htable] at hi ⊢
    apply update_of_ne
    rintro rfl
    rw [update_self] at hi
    cases hi
  apply pathOps_congr
  · intro i j hi hj
    rw [hback i hi,hback j hj]
    exact hd i j (hback i hi ▸ hi) (hback j hj ▸ hj)
  · intro i hi
    exact hkept i (bestMount_covers hi).1
  intro j hj
  have hsamej := hback j hj.1
  rw [Covers,hsamej] at hj
  rw [hsamej]
  exact bestMount_longest hj

/-- In every table the calls can make, a path goes to the longest mount that holds it, with the
components behind the mount path, and to ramfs if there is none; a mount that does not hold it
is not taken, and an unmount undoes its mount. -/
theorem mount_lookup_longest (ops : FsKind → FsOps σ) (fs : MountOps σ) (b : σ)
    (calls : List (MountCall σ))
    (hnormal : let v := (runMounts ops fs (Mounting.boot b) calls).vfs
      ∀ i, (v.mounts i).used=true → Normalised (v.mounts i).path) :
    let v := (runMounts ops fs (Mounting.boot b) calls).vfs
    MountsDistinct v ∧
    (∀ stack, (∀ c ∈ stack, IsComponent c) →
      (∃ i ms rest, (v.mounts i).used=true ∧ (v.mounts i).path=printPath ms ∧
        stack=ms ++ rest ∧ HeldBy (printPath stack) (v.mounts i).path ∧
        (∀ j, (v.mounts j).used=true → HeldBy (printPath stack) (v.mounts j).path → j≠i →
          (v.mounts j).path.length<(v.mounts i).path.length) ∧
        pathOps v (printPath stack)=((v.mounts i).ops, joinPath rest)) ∨
      ((∀ i, (v.mounts i).used=true → ¬ HeldBy (printPath stack) (v.mounts i).path) ∧
        pathOps v (printPath stack)=(.ramfs,printPath stack))) ∧
    (∀ path i, ¬ HeldBy path (v.mounts i).path → bestMount v path≠some i) ∧
    (∀ cwd cwd' type target target' cwds w, (vfsMount fs cwd type target v).1=true →
      w.mounts=(vfsMount fs cwd type target v).2.mounts →
      resolvePath cwd' target' fsPathMax=resolvePath cwd target fsPathMax →
      (vfsUnmount fs cwd' cwds target' w).1=true →
      ∀ path, pathOps (vfsUnmount fs cwd' cwds target' w).2 path=pathOps v path) := by
  intro v
  have inv : MountsInv v := (MountsInv.boot b).runMounts calls
  refine ⟨inv.distinct,?_,?_,?_⟩
  · intro stack hstack
    cases hbest : bestMount v (printPath stack) with
    | some i =>
      obtain ⟨ms,rest,hpath,hsplit,hops⟩ :=
        pathOps_components inv.notRoot hnormal hstack hbest
      obtain ⟨hused,hheld⟩ := covers_iff.mp (bestMount_covers hbest)
      refine .inl ⟨i,ms,rest,hused,hpath,hsplit,hheld,?_,hops⟩
      intro j hj hjheld hne
      exact bestMount_strict inv.distinct hbest (covers_iff.mpr ⟨hj,hjheld⟩) hne
    | none =>
      refine .inr ⟨?_,pathOps_of_none hbest⟩
      intro i hused hheld
      obtain ⟨j,hj,-⟩ := bestMount_longest (covers_iff.mpr ⟨hused,hheld⟩)
      rw [hbest] at hj
      cases hj
  · intro path i hnot hbest
    exact hnot (covers_iff.mp (bestMount_covers hbest)).2
  · intro cwd cwd' type target target' cwds w hmount hsame htarget hunmount path
    exact unmount_restores inv.distinct hmount hsame htarget hunmount path

end Lookup

section Samples

/-- The calls that mount the disk. -/
def mountDisk : List (MountCall Unit) := [.mount none fat32Type diskPath]

/-- With the disk mounted, `/diskette` is not on it. -/
theorem diskette_is_not_disk :
    bestMount (runMounts sampleOps sampleMountOps (Mounting.boot ()) mountDisk).vfs
      "/diskette".toUTF8.toList≠some ⟨1,by decide⟩ := by
  refine (mount_lookup_longest sampleOps sampleMountOps () mountDisk ?_).2.2.1 _ _ ?_
  · have hpaths : ∀ i, ((runMounts sampleOps sampleMountOps (Mounting.boot ())
        mountDisk).vfs.mounts i).used=true →
        ((runMounts sampleOps sampleMountOps (Mounting.boot ()) mountDisk).vfs.mounts i).path =
            printPath ["dev".toUTF8.toList] ∨
        ((runMounts sampleOps sampleMountOps (Mounting.boot ()) mountDisk).vfs.mounts i).path =
            printPath ["disk".toUTF8.toList] := by
      decide +kernel
    intro v i hi
    rcases hpaths i hi with h | h
    · refine ⟨_,?_,h⟩
      intro c hc
      rw [mem_singleton.mp hc]
      constructor <;> decide +kernel
    refine ⟨_,?_,h⟩
    intro c hc
    rw [mem_singleton.mp hc]
    constructor <;> decide +kernel
  · rw [← pathHasPrefix_held]
    decide +kernel

end Samples

end ConeOS.Vfs
