import ConeOS.Vfs.TableInvariant

namespace ConeOS.Vfs

open ConeOS.Library List

/-- The functions behind the mount table that mounting itself asks. -/
structure MountOps (σ : Type) where
  fat32Mounted : σ → Bool
  isDirectory : FsKind → Path → σ → Bool
  sync : FsKind → σ → Bool × σ

def fat32Type : Path := "fat32".toUTF8.toList

section Model

variable {σ : Type} (fs : MountOps σ)

def vfsIsDirectory (cwd : Option Path) (path : Path) (v : VfsState σ) : Bool :=
  match resolvePath cwd path ramfsNameSize with
  | none => false
  | some absolute =>
    let byBackend := fs.isDirectory (pathOps v absolute).1 (pathOps v absolute).2 v.backend
    if absolute=[slash] then true
    else
      match findMount v absolute with
      | none => byBackend
      | some (i,_) => if absolute=(v.mounts i).path then true else byBackend

def vfsMount (cwd : Option Path) (type target : Path) (v : VfsState σ) : Bool × VfsState σ :=
  if type≠fat32Type ∨ !fs.fat32Mounted v.backend then (false,v)
  else
    match resolvePath cwd target fsPathMax with
    | none => (false,v)
    | some absolute =>
      if absolute=[slash] ∨ !vfsIsDirectory fs cwd absolute v then (false,v)
      else installMount absolute fat32Type .fat32 true v

/-- `process_cwd_in_mount` over the working directories of the running processes. -/
def processCwdInMount (cwds : List Path) (mountPath : Path) : Bool :=
  cwds.any (fun cwd => pathHasPrefix cwd mountPath)

/-- What keeps `vfs_unmount` from taking mount `i` away: its own flag, a working directory,
a mount below it, or a descriptor from number 3 on. -/
def mountBusy (cwds : List Path) (absolute : Path) (i : Fin vfsMaxMounts) (v : VfsState σ) :
    Bool :=
  !(v.mounts i).removable || processCwdInMount cwds absolute ||
    (List.finRange vfsMaxMounts).any (fun j => j != i && (v.mounts j).used &&
      pathHasPrefix (v.mounts j).path absolute) ||
    (List.finRange vfsDescriptorSlots).any (fun j => (v.descriptors j).used &&
      decide (3≤(v.descriptors j).number) && pathHasPrefix (v.descriptors j).name absolute)

/-- The mount loses its path, its type and its operations with its `used` flag. -/
def removeMount (i : Fin vfsMaxMounts) (v : VfsState σ) : VfsState σ :=
  { v with mounts := Function.update v.mounts i ⟨false,false,[],[],.ramfs⟩ }

def vfsUnmount (cwd : Option Path) (cwds : List Path) (target : Path) (v : VfsState σ) :
    Bool × VfsState σ :=
  match resolvePath cwd target fsPathMax with
  | none => (false,v)
  | some absolute =>
    if absolute=[slash] then (false,v)
    else
      match firstIndex (fun i => (v.mounts i).used && (v.mounts i).path == absolute) with
      | none => (false,v)
      | some i =>
        if mountBusy cwds absolute i v then (false,v)
        else
          match fs.sync (v.mounts i).ops v.backend with
          | (false,b) => (false, { v with backend := b })
          | (true,b) => (true, removeMount i { v with backend := b })

end Model

/-- The operations and the path that `vfs_read`, `vfs_write` and `vfs_seek` take for a
descriptor. -/
def descriptorOps {σ : Type} (v : VfsState σ) (fd : VfsFd) : FsKind × Path := pathOps v fd.name

/-- An open regular file. -/
def VfsFd.isRegular (fd : VfsFd) : Bool :=
  fd.used && fd.file.isSome && fd.device == .none && fd.pipeMode == .none

section Prefixes

variable {path p q : Path}

theorem pathHasPrefix_iff :
    pathHasPrefix path p=true ↔ ∃ rest, path=p ++ rest ∧ (rest=[] ∨ rest.head? = some slash) := by
  induction p generalizing path with
  | nil =>
    cases path with
    | nil => simp [pathHasPrefix]
    | cons c cs => simp [pathHasPrefix]
  | cons d ps ih =>
    cases path with
    | nil => simp [pathHasPrefix]
    | cons c cs =>
      simp only [pathHasPrefix,Bool.and_eq_true,beq_iff_eq,ih,cons_append,List.cons.injEq]
      constructor
      · rintro ⟨rfl,rest,hrest,h⟩
        exact ⟨rest,⟨rfl,hrest⟩,h⟩
      · rintro ⟨rest,⟨rfl,hrest⟩,h⟩
        exact ⟨rfl,rest,hrest,h⟩

theorem pathHasPrefix_same_length (hp : pathHasPrefix path p=true)
    (hq : pathHasPrefix path q=true) (hl : p.length=q.length) : p=q := by
  obtain ⟨r,hr,-⟩ := pathHasPrefix_iff.mp hp
  obtain ⟨r',hr',-⟩ := pathHasPrefix_iff.mp hq
  exact (append_inj (hr.symm.trans hr') hl).1

end Prefixes

section BestMount

variable {σ : Type} {v w : VfsState σ} {path : Path}

/-- A mount that holds the path. -/
def Covers (v : VfsState σ) (path : Path) (i : Fin vfsMaxMounts) : Prop :=
  (v.mounts i).used=true ∧ pathHasPrefix path (v.mounts i).path=true

/-- `bestMount` over a part of the table keeps the longest covering mount. -/
theorem bestMount_fold (v : VfsState σ) (path : Path) (is : List (Fin vfsMaxMounts))
    (best : Option (Fin vfsMaxMounts)) (hbest : ∀ b ∈ best, Covers v path b) :
    let r := is.foldl
      (fun best i =>
        if !(v.mounts i).used || !pathHasPrefix path (v.mounts i).path then best
        else
          let bestLength := match best with
            | none => 0
            | some b => (v.mounts b).path.length
          if (v.mounts i).path.length ≥ bestLength then some i else best) best
    (∀ b ∈ r, Covers v path b) ∧
      ∀ i, i ∈ is ∨ some i=best → Covers v path i →
        ∃ b ∈ r, (v.mounts i).path.length≤(v.mounts b).path.length := by
  induction is generalizing best with
  | nil =>
    refine ⟨hbest,?_⟩
    rintro i (hi | hi) _
    · cases hi
    · exact ⟨i,by simp [← hi],le_rfl⟩
  | cons j is ih =>
    rw [foldl_cons]
    by_cases hcover : Covers v path j
    · obtain ⟨hu,hp⟩ := id hcover
      simp only [hu,hp,Bool.not_true,Bool.or_self,Bool.false_eq_true,if_false]
      split_ifs with hlong
      · obtain ⟨hall,hmax⟩ := ih (some j) (by simpa using hcover)
        refine ⟨hall,?_⟩
        rintro i (hi | hi) hci
        · rcases mem_cons.mp hi with rfl | hi
          · exact hmax i (Or.inr rfl) hci
          · exact hmax i (Or.inl hi) hci
        obtain ⟨b,hb,hle⟩ := hmax j (Or.inr rfl) hcover
        refine ⟨b,hb,le_trans ?_ hle⟩
        rw [← hi] at hlong
        exact hlong
      obtain ⟨hall,hmax⟩ := ih best hbest
      refine ⟨hall,?_⟩
      rintro i (hi | hi) hci
      · rcases mem_cons.mp hi with rfl | hi
        · cases best with
          | none => simp at hlong
          | some b0 =>
            obtain ⟨b,hb,hle⟩ := hmax b0 (Or.inr rfl) (hbest b0 rfl)
            dsimp only at hlong
            exact ⟨b,hb,by omega⟩
        · exact hmax i (Or.inl hi) hci
      · exact hmax i (Or.inr hi) hci
    · have hskip : (!(v.mounts j).used || !pathHasPrefix path (v.mounts j).path)=true := by
        unfold Covers at hcover
        rw [not_and_or] at hcover
        rcases hcover with h | h <;> simp [h]
      rw [if_pos hskip]
      obtain ⟨hall,hmax⟩ := ih best hbest
      refine ⟨hall,?_⟩
      rintro i (hi | hi) hci
      · rcases mem_cons.mp hi with rfl | hi
        · exact absurd hci hcover
        · exact hmax i (Or.inl hi) hci
      · exact hmax i (Or.inr hi) hci

theorem bestMount_covers {i : Fin vfsMaxMounts} (h : bestMount v path=some i) :
    Covers v path i :=
  (bestMount_fold v path (List.finRange vfsMaxMounts) none (by simp)).1 i h

theorem bestMount_longest {i : Fin vfsMaxMounts} (h : Covers v path i) :
    ∃ b, bestMount v path=some b ∧ (v.mounts i).path.length≤(v.mounts b).path.length :=
  (bestMount_fold v path (List.finRange vfsMaxMounts) none (by simp)).2 i
    (Or.inl (mem_finRange i)) h

/-- No two mounts in use have the same path. -/
def MountsDistinct (v : VfsState σ) : Prop :=
  ∀ i j, (v.mounts i).used=true → (v.mounts j).used=true →
    (v.mounts i).path=(v.mounts j).path → i=j

theorem bestMount_eq (hd : MountsDistinct v) {i : Fin vfsMaxMounts} (h : Covers v path i)
    (hmax : ∀ j, Covers v path j → (v.mounts j).path.length≤(v.mounts i).path.length) :
    bestMount v path=some i := by
  obtain ⟨b,hb,hle⟩ := bestMount_longest h
  have hcb := bestMount_covers hb
  have hlen : (v.mounts i).path.length=(v.mounts b).path.length := le_antisymm hle (hmax b hcb)
  rw [hb,hd i b h.1 hcb.1 (pathHasPrefix_same_length h.2 hcb.2 hlen)]

theorem bestMount_none (h : ∀ i, ¬ Covers v path i) : bestMount v path=none := by
  cases hb : bestMount v path with
  | none => rfl
  | some b => exact absurd (bestMount_covers hb) (h b)

/-- Resolution looks only at the mounts that cover the path. -/
theorem pathOps_congr (hd : MountsDistinct w)
    (h : ∀ i, bestMount v path=some i → w.mounts i=v.mounts i)
    (hlong : ∀ j, Covers w path j →
      ∃ i, bestMount v path=some i ∧ (w.mounts j).path.length≤(v.mounts i).path.length) :
    pathOps w path=pathOps v path := by
  have hbest : bestMount w path=bestMount v path := by
    cases hb : bestMount v path with
    | none =>
      apply bestMount_none
      intro j hj
      obtain ⟨i,hi,-⟩ := hlong j hj
      rw [hb] at hi
      cases hi
    | some i =>
      have hsame := h i hb
      have hcover := bestMount_covers hb
      apply bestMount_eq hd
      · unfold Covers
        rw [hsame]
        exact hcover
      intro j hj
      obtain ⟨i',hi',hle⟩ := hlong j hj
      rw [hb,Option.some.injEq] at hi'
      rw [hsame,hi']
      exact hle
  unfold pathOps findMount
  rw [hbest]
  cases hb : bestMount v path with
  | none => rfl
  | some i => simp only [h i hb]

end BestMount

end ConeOS.Vfs
