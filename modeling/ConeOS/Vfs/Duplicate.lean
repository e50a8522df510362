import ConeOS.Vfs.Lookup

namespace ConeOS.Vfs

open ConeOS.Library Function

section Restrictions

/-- `vfs_read` refuses the number: standard output and error, unless they are pipes, and
regular files below 3. -/
def readRefused (fd : VfsFd) (number : Int) : Prop :=
  fd.pipeMode = .none ∧ (number=1 ∨ number=2 ∨ fd.device = .none ∧ number<3)

/-- `vfs_write` refuses the number: standard input, unless it is a pipe. -/
def writeRefused (fd : VfsFd) (number : Int) : Prop := fd.pipeMode = .none ∧ number=0

/-- `vfs_seek` refuses the number of a regular file. -/
def seekRefused (fd : VfsFd) (number : Int) : Prop :=
  fd.pipeMode = .none ∧ fd.device = .none ∧ number<3

instance (fd : VfsFd) (number : Int) : Decidable (readRefused fd number) :=
  inferInstanceAs (Decidable (_ ∧ _))

instance (fd : VfsFd) (number : Int) : Decidable (writeRefused fd number) :=
  inferInstanceAs (Decidable (_ ∧ _))

instance (fd : VfsFd) (number : Int) : Decidable (seekRefused fd number) :=
  inferInstanceAs (Decidable (_ ∧ _))

end Restrictions

section Model

variable {σ : Type} {v w : VfsState σ} {owner : Nat} {s d : Int}

/-- Two numbers of one owner that hold the same object. -/
structure Duplicates (w : VfsState σ) (owner : Nat) (s d : Int) (i j : SlotRef) : Prop where
  source : lookup w owner s=some i
  copy : lookup w owner d=some j
  same : w.descriptors j = { w.descriptors i with number := d }

theorem duplicateInto_descriptors (target : SlotRef) (saved : VfsFd) (owner : Nat) (number : Int)
    (v : VfsState σ) : (duplicateInto target saved owner number v).descriptors =
      update v.descriptors target
        { saved with owner := owner, number := number, used := true } := by
  simp [duplicateInto]

/-- The copy of a slot under a number that no other slot of the owner has. -/
theorem Duplicates.duplicateInto {i target : SlotRef} (hs : lookup v owner s=some i)
    (hsd : s≠d) (htarget : lookup v owner d=some target ∨
      lookup v owner d=none ∧ (v.descriptors target).used=false) :
    Duplicates (duplicateInto target (v.descriptors i) owner d v) owner s d i target := by
  obtain ⟨hused,howner,hnumber⟩ := lookup_some hs
  have hne : i≠target := by
    rintro rfl
    rcases htarget with h | h
    · exact hsd (hnumber.symm.trans (lookup_some h).2.2)
    · rw [h.2] at hused
      cases hused
  have hfd : { v.descriptors i with owner := owner, number := d, used := true } =
      { v.descriptors i with number := d } := by
    rw [← howner,← hused]
  have hdesc := duplicateInto_descriptors target (v.descriptors i) owner d v
  rw [hfd] at hdesc
  have hlookup : ∀ n, lookup (Vfs.duplicateInto target (v.descriptors i) owner d v) owner n =
      lookup (setSlot target { v.descriptors i with number := d } v) owner n := by
    intro n
    apply lookup_congr
    intro j
    rw [hdesc]
    rfl
  have hnew : VfsFd.is { v.descriptors i with number := d } owner d=true := by
    simp [VfsFd.is,hused,howner]
  refine ⟨?_,?_,?_⟩
  · rw [hlookup,lookup_setSlot_same,hs]
    have hother : VfsFd.is { v.descriptors i with number := d } owner s=false := by
      simp [VfsFd.is,Ne.symm hsd]
    rw [hother]
    rcases htarget with h | h
    · obtain ⟨-,-,hd⟩ := lookup_some h
      simp [VfsFd.is,hd,Ne.symm hsd]
    · simp [VfsFd.is,h.2]
  · rw [hlookup]
    rcases htarget with h | h
    · rw [lookup_setSlot_same (hnew.trans (lookup_some_is h).symm),h]
    · exact lookup_setSlot_new h.1 hnew
  · rw [hdesc,update_self,update_of_ne hne]

theorem vfsDup_duplicates (h : (vfsDup owner s v).value=d) (hd : 0≤d) :
    ∃ i j, Duplicates (vfsDup owner s v).state owner s d i j := by
  unfold vfsDup at h ⊢
  dsimp only at h ⊢
  cases hs : lookup (ensureStandardStreams owner v) owner s with
  | none =>
    rw [hs] at h
    simp only at h
    omega
  | some source =>
    rw [hs] at h
    dsimp only at h ⊢
    split at h
    · next destination target hfree htarget =>
      dsimp only at h ⊢
      subst h
      have hnone := freeNumber_some hfree
      have hsd : s≠destination := by
        rintro rfl
        rw [hnone] at hs
        cases hs
      exact ⟨source,target,.duplicateInto hs hsd (.inr ⟨hnone,allocateSlot_some htarget⟩)⟩
    · dsimp only at h
      omega

/-- The slot that dup2 overwrites gives up what it held first. -/
def releaseOld (old : VfsFd) (v : VfsState σ) : VfsState σ :=
  if old.used then
    openFileReleaseLocked old.file (pipeDropReferenceLocked old.pipe old.pipeMode v)
  else v

theorem releaseOld_descriptors (old : VfsFd) (v : VfsState σ) :
    (releaseOld old v).descriptors=v.descriptors := by
  rw [releaseOld]
  split_ifs
  · simp
  · rfl

theorem dup2Target_some {v : VfsState σ} {target : SlotRef}
    (h : dup2Target v owner d=some target) : lookup v owner d=some target ∨
      lookup v owner d=none ∧ (v.descriptors target).used=false := by
  rw [dup2Target] at h
  split at h
  · next i hi =>
    rw [← h]
    exact .inl hi
  · next hnone => exact .inr ⟨hnone,allocateSlot_some h⟩

theorem vfsDup2_duplicates (h : (vfsDup2 owner s d v).value=d) (hd : 0≤d) :
    ∃ i j, Duplicates (vfsDup2 owner s d v).state owner s d i j := by
  rw [vfsDup2] at h ⊢
  by_cases hrange : d<0 ∨ d ≥ vfsMaxFds
  · rw [if_pos hrange] at h
    dsimp only at h
    omega
  rw [if_neg hrange] at h ⊢
  dsimp only at h ⊢
  generalize ensureStandardStreams owner v=v at h ⊢
  cases hs : lookup v owner s with
  | none =>
    rw [hs] at h
    dsimp only at h
    omega
  | some source =>
    rw [hs] at h
    dsimp only at h ⊢
    by_cases hsd : s=d
    · rw [if_pos hsd]
      subst hsd
      refine ⟨source,source,hs,hs,?_⟩
      obtain ⟨-,-,hnumber⟩ := lookup_some hs
      conv_rhs => rw [← hnumber]
    rw [if_neg hsd] at h ⊢
    cases ht : dup2Target v owner d with
    | none =>
      rw [ht] at h
      dsimp only at h
      omega
    | some target =>
      have hdesc := releaseOld_descriptors (v.descriptors target) v
      have hlookup : ∀ n, lookup (releaseOld (v.descriptors target) v) owner n =
          lookup v owner n := fun n => lookup_congr (fun j => by rw [hdesc])
      have hcopy : Duplicates (duplicateInto target
          ((releaseOld (v.descriptors target) v).descriptors source) owner d
          (releaseOld (v.descriptors target) v)) owner s d source target := by
        refine .duplicateInto (by rw [hlookup,hs]) hsd ?_
        rw [hlookup,hdesc]
        exact dup2Target_some ht
      rw [hdesc] at hcopy
      exact ⟨source,target,hcopy⟩

end Model

section Interchange

variable {σ : Type} (ops : FsKind → FileOps σ) {v : VfsState σ} {owner : Nat} {number : Int}
  {i : SlotRef}

/-- `vfs_read` with its tests of the number brought together. -/
theorem vfsRead_of_lookup (h : lookup v owner number=some i) (length : Nat) :
    vfsRead ops owner number length v =
      if (v.descriptors i).pipeMode ≠ .none then
        (pipeRead (v.descriptors i) length, ensureStandardStreams owner v)
      else if readRefused (v.descriptors i) number then (.failure,ensureStandardStreams owner v)
      else if (v.descriptors i).device ≠ .none then
        (devfsRead (v.descriptors i).device length, ensureStandardStreams owner v)
      else readFile ops (v.descriptors i) length (ensureStandardStreams owner v) := by
  have hkeeps := KeepsDescriptor.standardStreams owner h
  simp only [vfsRead,hkeeps.lookup,hkeeps.descriptor]
  generalize v.descriptors i=fd
  by_cases hpipe : fd.pipeMode = .none
  · simp only [hpipe,readRefused,true_and,ne_eq,not_true_eq_false,if_false]
    by_cases h12 : number=1 ∨ number=2
    · rw [if_pos h12,if_pos (by tauto)]
    rw [if_neg h12]
    by_cases hdev : fd.device = .none
    · rw [if_neg (not_not_intro hdev),if_neg (not_not_intro hdev)]
      by_cases h3 : number<3
      · rw [if_pos h3,if_pos (.inr (.inr ⟨hdev,h3⟩))]
      · rw [if_neg h3,if_neg (by tauto)]
    · rw [if_pos hdev,if_pos hdev,if_neg (by tauto)]
  · rw [if_pos hpipe,if_pos hpipe]

theorem vfsWrite_of_lookup (h : lookup v owner number=some i) (buffer : List UInt8) :
    vfsWrite ops owner number buffer v =
      if buffer.length > ramfsDataSize then (.failure,ensureStandardStreams owner v)
      else if (v.descriptors i).pipeMode ≠ .none then
        (pipeWrite (v.descriptors i) buffer, ensureStandardStreams owner v)
      else if writeRefused (v.descriptors i) number then (.failure,ensureStandardStreams owner v)
      else if (v.descriptors i).device ≠ .none then
        (devfsWrite (v.descriptors i).device buffer, ensureStandardStreams owner v)
      else writeFile ops (v.descriptors i) buffer (ensureStandardStreams owner v) := by
  have hkeeps := KeepsDescriptor.standardStreams owner h
  simp only [vfsWrite,hkeeps.lookup,hkeeps.descriptor]
  generalize v.descriptors i=fd
  by_cases hpipe : fd.pipeMode = .none
  · simp only [hpipe,writeRefused,true_and]
  · rw [if_pos hpipe,if_pos hpipe]

theorem vfsSeek_of_lookup (h : lookup v owner number=some i) (offset whence : Int) :
    vfsSeek ops owner number offset whence v =
      if (v.descriptors i).device ≠ .none ∨ (v.descriptors i).pipeMode ≠ .none then (-1,v)
      else if seekRefused (v.descriptors i) number then (-1,v)
      else seekFile ops (v.descriptors i) offset whence v := by
  simp only [vfsSeek,h]
  generalize v.descriptors i=fd
  by_cases hother : fd.device ≠ .none ∨ fd.pipeMode ≠ .none
  · rw [if_pos hother,if_pos (.inr hother)]
  rw [if_neg hother]
  have hboth : fd.device = .none ∧ fd.pipeMode = .none := by tauto
  by_cases h3 : number<3
  · rw [if_pos (.inl h3),if_pos ⟨hboth.2,hboth.1,h3⟩]
  · rw [if_neg (by tauto),if_neg (fun hs => h3 hs.2.2)]

variable {s d : Int} {j : SlotRef}

/-- The file behind a descriptor can not be read: it is gone, or its file system has no bytes
for it. -/
def Unreadable (fd : VfsFd) (v : VfsState σ) : Prop :=
  fd.device = .none ∧ (fd.file=none ∨
    (ops (pathOps v fd.name).1).read (pathOps v fd.name).2 ramfsDataSize v.backend=none)

/-- No number writes these bytes: they are too long, or the file system takes none of them. -/
def Unwritable (fd : VfsFd) (buffer : List UInt8) (v : VfsState σ) : Prop :=
  ramfsDataSize<buffer.length ∨ fd.device = .none ∧ (fd.file=none ∨
    (ops (pathOps v fd.name).1).write (pathOps v fd.name).2 buffer v.backend=(false,v.backend))

/-- There is no file, no known start, or the place lies outside the file. -/
def Unseekable (fd : VfsFd) (offset whence : Int) (v : VfsState σ) : Prop :=
  ∀ k, fd.file=some k → ∀ size : Nat,
    (ops (pathOps v fd.name).1).stat (pathOps v fd.name).2 v.backend=some size → ∀ base : Nat,
    seekBase whence (v.openFiles k).offset size=some base → base+offset<0 ∨ size<base+offset

theorem readFile_failure (fd : VfsFd) (length : Nat) (v : VfsState σ) (hdev : fd.device = .none) :
    readFile ops fd length v=(.failure,v) ↔ Unreadable ops fd v := by
  unfold readFile Unreadable
  cases fd.file with
  | none => simp [hdev]
  | some k =>
    cases hread : (ops (pathOps v fd.name).1).read (pathOps v fd.name).2 ramfsDataSize v.backend with
    | none => simp [hdev,hread]
    | some data =>
      simp only [hread,hdev,reduceCtorEq,or_self,and_false,iff_false]
      split_ifs <;> simp [Entry.failure]

theorem writeFile_failure (fd : VfsFd) (buffer : List UInt8) (v : VfsState σ)
    (hdev : fd.device = .none) (hfits : buffer.length≤ramfsDataSize) :
    writeFile ops fd buffer v=(.failure,v) ↔ Unwritable ops fd buffer v := by
  unfold writeFile Unwritable
  rw [or_iff_right (Nat.not_lt.mpr hfits)]
  cases fd.file with
  | none => simp [hdev]
  | some k =>
    dsimp only
    generalize (ops (pathOps v fd.name).1).write (pathOps v fd.name).2 buffer v.backend=r
    obtain ⟨ok,b⟩ := r
    cases ok with
    | false =>
      simp only [hdev,Prod.mk.injEq,true_and,reduceCtorEq,false_or]
      exact ⟨fun h => by rw [← h],fun h => by rw [h]⟩
    | true => simp [hdev,Entry.failure]

theorem seekFile_failure (fd : VfsFd) (offset whence : Int) (v : VfsState σ) :
    seekFile ops fd offset whence v=(-1,v) ↔ Unseekable ops fd offset whence v := by
  unfold seekFile Unseekable
  cases fd.file with
  | none => simp
  | some k =>
    cases (ops (pathOps v fd.name).1).stat (pathOps v fd.name).2 v.backend with
    | none => simp
    | some size =>
      cases hbase : seekBase whence (v.openFiles k).offset size with
      | none => simp [hbase]
      | some base =>
        simp only [hbase,Option.some.injEq,forall_eq']
        split_ifs with hout
        · exact iff_of_true rfl hout
        · have hne : (base : Int)+offset≠-1 := by omega
          exact iff_of_false (fun h => hne (Prod.mk.inj h).1) hout

/-- A refusal changes the outcome only where the call does not come to it anyway. -/
theorem refusal_iff {α : Type} {P Q : Prop} [Decidable P] [Decidable Q] {a x : α} :
    ((if P then a else x)=if Q then a else x) ↔ ((P ↔ Q) ∨ x=a) := by
  split_ifs with hp hq hq <;> simp [hp,hq,eq_comm]

theorem Duplicates.read (h : Duplicates v owner s d i j) (length : Nat) :
    vfsRead ops owner d length v=vfsRead ops owner s length v ↔
      (readRefused (v.descriptors i) d ↔ readRefused (v.descriptors i) s) ∨
        Unreadable ops (v.descriptors i) v := by
  have hkeeps := KeepsDescriptor.standardStreams owner h.source
  have hsame : Unreadable ops (v.descriptors i) (ensureStandardStreams owner v) ↔
      Unreadable ops (v.descriptors i) v := by
    rw [Unreadable,pathOps_mounts hkeeps.mounts,hkeeps.backend]
    rfl
  rw [vfsRead_of_lookup ops h.source,vfsRead_of_lookup ops h.copy,h.same,← hsame]
  generalize v.descriptors i=fd
  by_cases hpipe : fd.pipeMode = .none
  · rw [if_neg (not_not_intro hpipe),if_neg (not_not_intro hpipe)]
    refine refusal_iff.trans (or_congr_right ?_)
    by_cases hdev : fd.device = .none
    · rw [if_neg (not_not_intro hdev)]
      exact readFile_failure ops fd length _ hdev
    · rw [if_pos hdev]
      cases hd : fd.device <;> simp_all [Unreadable,devfsRead,Entry.failure]
      split_ifs <;> simp
  · rw [if_pos hpipe,if_pos hpipe]
    exact ⟨fun _ => .inl (by simp [readRefused,hpipe]),fun _ => rfl⟩

theorem Duplicates.write (h : Duplicates v owner s d i j) (buffer : List UInt8) :
    vfsWrite ops owner d buffer v=vfsWrite ops owner s buffer v ↔
      (writeRefused (v.descriptors i) d ↔ writeRefused (v.descriptors i) s) ∨
        Unwritable ops (v.descriptors i) buffer v := by
  have hkeeps := KeepsDescriptor.standardStreams owner h.source
  have hsame : Unwritable ops (v.descriptors i) buffer (ensureStandardStreams owner v) ↔
      Unwritable ops (v.descriptors i) buffer v := by
    rw [Unwritable,pathOps_mounts hkeeps.mounts,hkeeps.backend]
    rfl
  rw [vfsWrite_of_lookup ops h.source,vfsWrite_of_lookup ops h.copy,h.same,← hsame]
  generalize v.descriptors i=fd
  by_cases hlong : ramfsDataSize<buffer.length
  · rw [if_pos hlong,if_pos hlong]
    exact ⟨fun _ => .inr (.inl hlong),fun _ => rfl⟩
  rw [if_neg hlong,if_neg hlong]
  by_cases hpipe : fd.pipeMode = .none
  · rw [if_neg (not_not_intro hpipe),if_neg (not_not_intro hpipe)]
    refine refusal_iff.trans (or_congr_right ?_)
    by_cases hdev : fd.device = .none
    · rw [if_neg (not_not_intro hdev)]
      exact writeFile_failure ops fd buffer _ hdev (Nat.not_lt.mp hlong)
    · rw [if_pos hdev]
      cases hd : fd.device <;> simp_all [Unwritable,devfsWrite,Entry.failure]
  · rw [if_pos hpipe,if_pos hpipe]
    exact ⟨fun _ => .inl (by simp [writeRefused,hpipe]),fun _ => rfl⟩

theorem Duplicates.seek (h : Duplicates v owner s d i j) (offset whence : Int) :
    vfsSeek ops owner d offset whence v=vfsSeek ops owner s offset whence v ↔
      (seekRefused (v.descriptors i) d ↔ seekRefused (v.descriptors i) s) ∨
        Unseekable ops (v.descriptors i) offset whence v := by
  rw [vfsSeek_of_lookup ops h.source,vfsSeek_of_lookup ops h.copy,h.same]
  generalize v.descriptors i=fd
  by_cases hother : fd.device ≠ .none ∨ fd.pipeMode ≠ .none
  · rw [if_pos hother,if_pos hother]
    refine ⟨fun _ => .inl ?_,fun _ => rfl⟩
    simp only [seekRefused]
    tauto
  · rw [if_neg hother,if_neg hother]
    exact refusal_iff.trans (or_congr_right (seekFile_failure ops fd offset whence v))

end Interchange

section Samples

/-- A file system with one file of one byte. -/
def oneByteOps : FsKind → FileOps Unit := fun _ =>
  { stat := fun _ _ => some 1
    create := fun _ b => (true,b)
    device := none
    read := fun _ _ _ => some [7]
    write := fun _ _ b => (true,b)
    mkdir := fun _ b => (false,b)
    unlink := fun _ b => (false,b)
    rmdir := fun _ b => (false,b) }

/-- Task 1 with its standard streams and two files open as numbers 3 and 4. -/
def twoFilesOpen : VfsState Unit :=
  { descriptors := fun i =>
      if i.val<3 then ⟨true,1,i.val,standardName i.val,none,.console,none,.none⟩
      else if i.val<5 then ⟨true,1,i.val,"/f".toUTF8.toList,some i,.none,none,.none⟩
      else blankFd
    openFiles := fun k => if k.val=3 ∨ k.val=4 then ⟨true,1,0⟩ else ⟨false,0,0⟩
    mounts := fun _ => ⟨false,false,[],[],.ramfs⟩
    pipes := fun _ => ⟨false,0,0,0,0,0,fun _ => 0⟩
    backend := () }

end Samples

end ConeOS.Vfs
