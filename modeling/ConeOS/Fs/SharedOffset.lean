import ConeOS.Fs.RootFs
import ConeOS.Vfs.Resolution
import ConeOS.Vfs.Duplicate

namespace ConeOS.Fs

open ConeOS.Library ConeOS.Vfs Function List

section Offsets

variable {σ : Type}

/-- Every open-file record in use in `w` was in use in `v`, at the same offset. -/
def OffsetsCarried (v w : VfsState σ) : Prop :=
  ∀ k, (w.openFiles k).used=true →
    (v.openFiles k).used=true ∧ (w.openFiles k).offset=(v.openFiles k).offset

variable {v : VfsState σ} {k : FileRef}

theorem retained_record (file : Option FileRef) (v : VfsState σ) (k : FileRef) :
    ((openFileRetainLocked file v).openFiles k).used=(v.openFiles k).used ∧
      ((openFileRetainLocked file v).openFiles k).offset=(v.openFiles k).offset := by
  cases file with
  | none => exact ⟨rfl,rfl⟩
  | some j =>
    by_cases h : k=j
    · subst h
      simp [openFileRetainLocked]
    · simp [openFileRetainLocked,h]

/-- The offset is cleared only with the mark of use, which a later reference does not set. -/
theorem released_record (file : Option FileRef) (v : VfsState σ) (k : FileRef)
    (h : ((openFileReleaseLocked file v).openFiles k).used=true) :
    (v.openFiles k).used=true ∧
      ((openFileReleaseLocked file v).openFiles k).offset=(v.openFiles k).offset := by
  cases file with
  | none => exact ⟨h,rfl⟩
  | some j =>
    rw [openFileReleaseLocked] at h ⊢
    dsimp only at h ⊢
    by_cases h0 : (v.openFiles j).references=0
    · rw [if_pos h0] at h ⊢
      exact ⟨h,rfl⟩
    rw [if_neg h0] at h ⊢
    dsimp only at h ⊢
    by_cases hk : k=j
    · subst hk
      rw [update_self] at h ⊢
      by_cases h1 : (v.openFiles k).references-1=0
      · rw [if_pos h1] at h
        cases h
      · rw [if_neg h1] at h ⊢
        exact ⟨h,rfl⟩
    · rw [update_of_ne hk] at h ⊢
      exact ⟨h,rfl⟩

theorem OffsetsCarried.edited {a : Bool} {w : VfsState σ} (h : Edited a v w) :
    OffsetsCarried v w := by
  induction h with
  | refl => exact fun _ hk => ⟨hk,rfl⟩
  | stream _ _ _ _ ih => exact ih
  | copy _ _ _ _ ih => exact ih
  | retain file _ ih =>
    intro k hk
    obtain ⟨hused,hoffset⟩ := retained_record file _ k
    rw [hused] at hk
    rw [hoffset]
    exact ih k hk
  | addEnd pipe mode _ ih =>
    intro k hk
    rw [pipeAddEnd_openFiles] at hk ⊢
    exact ih k hk
  | close i _ _ ih =>
    intro k hk
    obtain ⟨hused,hoffset⟩ := released_record _ _ k hk
    rw [pipeDropReferenceLocked_openFiles] at hused hoffset
    exact ⟨(ih k hused).1,hoffset.trans (ih k hused).2⟩

/-- Open takes a record that is not in use, and leaves the others. -/
theorem openDescriptor_offset (owner : Nat) (name : Path) (device : DevfsDevice)
    (h : (v.openFiles k).used=true) :
    ((openDescriptor owner name device v).state.openFiles k).offset=(v.openFiles k).offset := by
  have hother : ∀ {j : FileRef} {w : VfsState σ}, allocateOpenFileLocked v=(some j,w) →
      w.openFiles k=v.openFiles k ∧ k≠j := by
    intro j w hj
    obtain ⟨hunused,rfl⟩ := allocateOpenFileLocked_some hj
    have hne : k≠j := by
      rintro rfl
      rw [h] at hunused
      cases hunused
    exact ⟨update_of_ne hne _ _,hne⟩
  rw [openDescriptor]
  split
  · rfl
  split
  next hj => rw [setSlot_openFiles,(hother hj).1]
  next j w _ hj =>
    obtain ⟨hsame,hne⟩ := hother hj
    rw [← hsame,openFileReleaseLocked]
    dsimp only
    split
    · rfl
    · exact congrArg VfsOpenFile.offset (update_of_ne hne _ _)
  next hj => rw [allocateOpenFileLocked_none hj]

theorem vfsOpen_offset (ops : FsKind → FsOps σ) (cwd : Option Path) (owner : Nat) (name : Path)
    (create : Bool) (h : (v.openFiles k).used=true) :
    ((vfsOpen ops cwd owner name create v).state.openFiles k).offset=(v.openFiles k).offset := by
  rw [vfsOpen]
  split
  · rfl
  split
  · rfl
  dsimp only
  split
  · rfl
  next b _ =>
    have hfiles := ensureStandardStreams_openFiles owner { v with backend := b }
    rw [openDescriptor_offset _ _ _ (by rw [hfiles]; exact h),hfiles]

theorem vfsPipe_openFiles (owner : Nat) (v : VfsState σ) :
    (vfsPipe owner v).1.state.openFiles=v.openFiles := by
  rw [← ensureStandardStreams_openFiles owner v,vfsPipe]
  dsimp only
  split <;> rfl

/-- A call on descriptors leaves the offset of every record that stays in use. -/
theorem table_offset (ops : FsKind → FsOps σ) (c : TableCall) (h : (v.openFiles k).used=true)
    (hstays : ((c.run ops v).state.openFiles k).used=true) :
    ((c.run ops v).state.openFiles k).offset=(v.openFiles k).offset := by
  have hedited {a : Bool} (he : Edited a v (c.run ops v).state) :
      ((c.run ops v).state.openFiles k).offset=(v.openFiles k).offset :=
    (OffsetsCarried.edited he k hstays).2
  cases c with
  | «open» cwd owner name create => exact vfsOpen_offset ops cwd owner name create h
  | pipe owner => exact congrArg (fun files => (files k).offset) (vfsPipe_openFiles owner v)
  | dup owner number => exact hedited (a := true) (.vfsDup owner number v)
  | dup2 owner source destination => exact hedited (.vfsDup2 owner source destination v)
  | close owner number => exact hedited (.vfsClose owner number v)
  | closeAll owner => exact hedited (.vfsCloseAll owner v)
  | inheritStandard parent child => exact hedited (.vfsInheritStandard parent child v)
  | fork parent child => exact hedited (.vfsFork parent child v)

end Offsets

section Sharing

variable {σ : Type}

/-- Some descriptor holds the record, and all that do are of one regular file. -/
structure SharedFile (v : VfsState σ) (k : FileRef) (name : Path) : Prop where
  held : ∃ i, holdsFile k (v.descriptors i)=true
  named : ∀ i, holdsFile k (v.descriptors i)=true → (v.descriptors i).name=name ∧
    (v.descriptors i).device = .none ∧ (v.descriptors i).pipeMode = .none

variable {v w : VfsState σ} {k : FileRef} {name : Path}

theorem SharedFile.used (h : SharedFile v k name) (inv : DescriptorInv v) :
    (v.openFiles k).used=true := by
  obtain ⟨i,hi⟩ := h.held
  exact (inv.fileUsed k).mpr (tally_pos hi)

theorem SharedFile.carried (h : SharedFile v k name) (hw : Carried v w)
    (hheld : ∃ i, holdsFile k (w.descriptors i)=true) : SharedFile w k name := by
  refine ⟨hheld,?_⟩
  intro i hi
  obtain ⟨j,hj,hname,hdevice,hmode⟩ := hw.slots i k hi
  rw [← hname,← hdevice,← hmode]
  exact h.named j hj

/-- Copies of a descriptor are of the same file, whoever gets them. -/
theorem SharedFile.table (h : SharedFile v k name) (inv : DescriptorInv v)
    (ops : FsKind → FsOps σ) (c : TableCall)
    (hheld : ∃ i, holdsFile k ((c.run ops v).state.descriptors i)=true) :
    SharedFile (c.run ops v).state k name := by
  refine ⟨hheld,?_⟩
  intro i hi
  rcases (TableStep.run inv ops c).slots i k hi with ⟨j,hj,hname,hdevice,hmode⟩ | ⟨hunused,-⟩
  · rw [← hname,← hdevice,← hmode]
    exact h.named j hj
  · rw [h.used inv] at hunused
    cases hunused

end Sharing

section Reading

variable {σ : Type} {v : VfsState σ} {k : FileRef} {name : Path} {data : List UInt8} {owner : Nat}
  {number : Int}

theorem setOffset_inv (inv : DescriptorInv v) (k : FileRef) (offset : Nat) :
    DescriptorInv (setOffset k offset v) := by
  have hrecord : ∀ j, ((Vfs.setOffset k offset v).openFiles j).references =
      (v.openFiles j).references ∧
      ((Vfs.setOffset k offset v).openFiles j).used=(v.openFiles j).used := by
    intro j
    by_cases hj : j=k
    · subst hj
      simp [Vfs.setOffset]
    · simp [Vfs.setOffset,hj]
  refine ⟨inv.distinct,?_,?_,inv.readers,inv.writers,inv.pipeUsed⟩
  · intro j
    rw [(hrecord j).1]
    exact inv.references j
  · intro j
    rw [(hrecord j).2]
    exact inv.fileUsed j

theorem setOffset_self (v : VfsState σ) : setOffset k (v.openFiles k).offset v=v := by
  rw [setOffset]
  rw [update_eq_self]

variable (ops : FsKind → FileOps σ)

/-- What the file system of the path has under it: whoever asks for that much gets it all. -/
def Contents (v : VfsState σ) (name : Path) (data : List UInt8) : Prop :=
  ∀ capacity, data.length≤capacity →
    (ops (pathOps v name).1).read (pathOps v name).2 capacity v.backend=some data

/-- The descriptor is one of those that share the record. -/
def Through (v : VfsState σ) (k : FileRef) (owner : Nat) (number : Int) : Prop :=
  3≤number ∧ ∃ i, lookup v owner number=some i ∧ (v.descriptors i).file=some k

/-- What is left of the data from the offset on, up to the length asked for. -/
def portion (data : List UInt8) (offset length : Nat) : List UInt8 := (data.drop offset).take length

/-- One read through any of the descriptors delivers the next portion and moves the shared
offset behind it. -/
theorem vfsRead_shared (h : SharedFile v k name) (hcontents : Contents ops v name data)
    (hfits : data.length≤ramfsDataSize)
    (hthrough : Through v k owner number) (length : Nat) :
    vfsRead ops owner number length v =
      (.returned 0 (portion data (v.openFiles k).offset length).length
          (portion data (v.openFiles k).offset length),
        setOffset k ((v.openFiles k).offset+(portion data (v.openFiles k).offset length).length)
          (ensureStandardStreams owner v)) := by
  obtain ⟨hnumber,i,hi,hfile⟩ := hthrough
  obtain ⟨hname,hdevice,hmode⟩ :=
    h.named i (holdsFile_iff.mpr ⟨(lookup_some hi).1,hfile⟩)
  have hkeeps := KeepsDescriptor.standardStreams owner hi
  have hallowed : ¬ readRefused (v.descriptors i) number := by
    rw [readRefused]
    omega
  rw [vfsRead_of_lookup ops hi,if_neg (not_not_intro hmode),if_neg hallowed,
    if_neg (not_not_intro hdevice),readFile]
  generalize ensureStandardStreams owner v=w at hkeeps
  rw [hname,hfile,pathOps_mounts hkeeps.mounts,← hkeeps.openFiles]
  dsimp only
  rw [hkeeps.backend,hcontents ramfsDataSize hfits]
  dsimp only
  by_cases hend : (w.openFiles k).offset ≥ data.length
  · have hnothing : portion data (w.openFiles k).offset length=[] := by
      rw [portion,drop_eq_nil_of_le hend,take_nil]
    rw [if_pos hend,hnothing,length_nil,Nat.add_zero,setOffset_self]
  have hsame : (data.drop (w.openFiles k).offset).take
      (min (data.length-(w.openFiles k).offset) length) =
      portion data (w.openFiles k).offset length := by
    rw [portion,min_comm,← length_drop,← take_eq_take_min]
  have hlength : (portion data (w.openFiles k).offset length).length =
      min (data.length-(w.openFiles k).offset) length := by
    rw [portion,length_take,length_drop,min_comm]
  rw [if_neg hend,hsame,hlength]

/-- The calls of any processes on one shared file: reads, and calls on descriptors between
them. -/
inductive SharedCall
  | read (owner : Nat) (number : Int) (length : Nat)
  | table (c : TableCall)

/-- The calls in their order; for each read, what was asked and what came back. -/
def runShared (v : VfsState σ) : List SharedCall → List (Nat × Entry) × VfsState σ
  | [] => ([],v)
  | .read owner number length :: calls =>
    let r := vfsRead ops owner number length v
    let rest := runShared r.2 calls
    ((length,r.1) :: rest.1, rest.2)
  | .table c :: calls => runShared (c.run (fun kind => (ops kind).toFsOps) v).state calls

/-- Each read goes through a descriptor of the record and finds the contents as they were;
the record is held throughout. -/
def ReadsShared (k : FileRef) (name : Path) (data : List UInt8) (v : VfsState σ) :
    List SharedCall → Prop
  | [] => True
  | .read owner number length :: calls =>
    Through v k owner number ∧ Contents ops v name data ∧
      ReadsShared k name data (vfsRead ops owner number length v).2 calls
  | .table c :: calls =>
    (∃ i, holdsFile k ((c.run (fun kind => (ops kind).toFsOps) v).state.descriptors i)=true) ∧
      ReadsShared k name data (c.run (fun kind => (ops kind).toFsOps) v).state calls

def bytesOf : Entry → List UInt8
  | .returned _ _ bytes => bytes
  | _ => []

/-- The pieces in the order of the calls. -/
def delivered (trace : List (Nat × Entry)) : List UInt8 := trace.flatMap (fun r => bytesOf r.2)

/-- Each read gets the portion behind those before it. -/
def Portions (data : List UInt8) : Nat → List (Nat × Entry) → Prop
  | _, [] => True
  | offset, (length,entry) :: rest =>
    entry = .returned 0 (portion data offset length).length (portion data offset length) ∧
      Portions data (offset+(portion data offset length).length) rest

/-- A read keeps what the next call relies on. -/
theorem SharedFile.read (h : SharedFile v k name)
    (hthrough : Through v k owner number) (offset : Nat) :
    SharedFile (setOffset k offset (ensureStandardStreams owner v)) k name := by
  obtain ⟨-,i,hi,hfile⟩ := hthrough
  have hkeeps := KeepsDescriptor.standardStreams owner hi
  have hshared : SharedFile (ensureStandardStreams owner v) k name := by
    refine h.carried (Carried.ensureStandardStreams owner v) ⟨i,?_⟩
    rw [hkeeps.descriptor]
    exact holdsFile_iff.mpr ⟨(lookup_some hi).1,hfile⟩
  exact ⟨hshared.held,hshared.named⟩

theorem Through.read (h : Through v k owner number) (reader : Nat)
    (offset : Nat) :
    Through (setOffset k offset (ensureStandardStreams reader v)) k owner number := by
  obtain ⟨hnumber,i,hi,hfile⟩ := h
  have hkeeps := KeepsDescriptor.standardStreams reader hi
  refine ⟨hnumber,i,hkeeps.lookup,?_⟩
  change ((ensureStandardStreams reader v).descriptors i).file=some k
  rw [hkeeps.descriptor]
  exact hfile

theorem Contents.read {ops : FsKind → FileOps σ} (h : Contents ops v name data) (reader : Nat)
    (offset : Nat) :
    Contents ops (setOffset k offset (ensureStandardStreams reader v)) name data := by
  have hmounts : (setOffset k offset (ensureStandardStreams reader v)).mounts=v.mounts :=
    (Carried.ensureStandardStreams reader v).mounts
  intro capacity hcapacity
  rw [pathOps_mounts hmounts]
  change (ops (pathOps v name).1).read (pathOps v name).2 capacity
    (ensureStandardStreams reader v).backend=some data
  rw [ensureStandardStreams_backend]
  exact h capacity hcapacity

/-- Where there is nothing but reads, the descriptors and the contents stay as they are. -/
theorem readsShared_of_reads (hfits : data.length≤ramfsDataSize) (h : SharedFile v k name)
    (hcontents : Contents ops v name data) (reads : List (Nat × Int × Nat))
    (hthrough : ∀ r ∈ reads, Through v k r.1 r.2.1) :
    ReadsShared ops k name data v (reads.map (fun r => .read r.1 r.2.1 r.2.2)) := by
  induction reads generalizing v with
  | nil => trivial
  | cons r reads ih =>
    have hr := hthrough r mem_cons_self
    refine ⟨hr,hcontents,?_⟩
    rw [vfsRead_shared ops h hcontents hfits hr]
    apply ih
    · exact h.read hr _
    · exact hcontents.read r.1 _
    · intro r' hr'
      exact (hthrough r' (mem_cons_of_mem r hr')).read r.1 _

theorem setOffset_offset (k : FileRef) (offset : Nat) (v : VfsState σ) :
    ((setOffset k offset v).openFiles k).offset = offset := by
  simp [setOffset]

/-- Over a whole run the reads get the portions of the file one behind the other, and the
offset stands behind the last. -/
theorem runShared_portions (hfits : data.length≤ramfsDataSize) (calls : List SharedCall)
    (inv : DescriptorInv v) (h : SharedFile v k name)
    (hreads : ReadsShared ops k name data v calls) :
    Portions data (v.openFiles k).offset (runShared ops v calls).1 ∧
      ((runShared ops v calls).2.openFiles k).offset =
        (v.openFiles k).offset+(delivered (runShared ops v calls).1).length := by
  induction calls generalizing v with
  | nil => exact ⟨trivial,rfl⟩
  | cons c calls ih =>
    cases c with
    | read owner number length =>
      obtain ⟨hthrough,hcontents,hrest⟩ := hreads
      rw [runShared]
      dsimp only
      rw [vfsRead_shared ops h hcontents hfits hthrough length] at hrest ⊢
      dsimp only at hrest ⊢
      obtain ⟨hportions,hoffset⟩ := ih (setOffset_inv (inv.ensureStandardStreams owner) k _)
        (h.read hthrough _) hrest
      rw [setOffset_offset] at hportions hoffset
      refine ⟨⟨rfl,hportions⟩,?_⟩
      rw [hoffset,delivered,delivered,flatMap_cons,length_append,Nat.add_assoc]
      rfl
    | table c =>
      obtain ⟨hheld,hrest⟩ := hreads
      have hshared := h.table inv (fun kind => (ops kind).toFsOps) c hheld
      have hinv := inv.run (fun kind => (ops kind).toFsOps) c
      have hoffset := table_offset (fun kind => (ops kind).toFsOps) c (h.used inv)
        (hshared.used hinv)
      rw [runShared,← hoffset]
      exact ih hinv hshared hrest

end Reading

section Partition

variable {data : List UInt8} {offset : Nat} {trace : List (Nat × Entry)}

theorem drop_eq_portion (data : List UInt8) (offset length : Nat) :
    data.drop offset =
      portion data offset length ++ data.drop (offset+(portion data offset length).length) := by
  have hle : (portion data offset length).length≤length := length_take_le _ _
  rw [← drop_drop]
  conv_lhs => rw [← take_append_drop (portion data offset length).length (data.drop offset)]
  congr 1
  rw [portion,length_take,take_eq_take_min,min_assoc,min_self,← take_eq_take_min]

/-- No byte is skipped and none is delivered twice. -/
theorem Portions.within
    (h : Portions data offset trace) : delivered trace <+: data.drop offset := by
  induction trace generalizing offset with
  | nil => exact List.nil_prefix
  | cons r rest ih =>
    obtain ⟨length,entry⟩ := r
    obtain ⟨rfl,hrest⟩ := h
    rw [drop_eq_portion data offset length]
    exact (prefix_append_right_inj _).mpr (ih hrest)

theorem Portions.split {before after : List (Nat × Entry)} {r : Nat × Entry}
    (h : Portions data offset (before ++ r :: after)) :
    Portions data offset before ∧
      r.2 = .returned 0 (portion data (offset+(delivered before).length) r.1).length
        (portion data (offset+(delivered before).length) r.1) := by
  induction before generalizing offset with
  | nil => exact ⟨trivial,h.1⟩
  | cons first before ih =>
    obtain ⟨length,entry⟩ := first
    obtain ⟨rfl,hrest⟩ := h
    obtain ⟨hbefore,hr⟩ := ih hrest
    refine ⟨⟨rfl,hbefore⟩,?_⟩
    rw [delivered,flatMap_cons,length_append,← Nat.add_assoc]
    exact hr

/-- A portion is empty only where nothing was asked for or nothing is left. -/
theorem portion_eq_nil {length : Nat} (h : length≠0) :
    portion data offset length=[] ↔ data.length≤offset := by
  rw [portion,take_eq_nil_iff,drop_eq_nil_iff]
  exact or_iff_right h

theorem Portions.exhausted
    (h : Portions data offset trace) :
    data.length≤offset+(delivered trace).length ↔ delivered trace=data.drop offset := by
  have hwithin := h.within
  constructor
  · intro hle
    apply hwithin.eq_of_length_le
    rw [length_drop]
    omega
  · intro heq
    rw [heq,length_drop]
    omega

end Partition

/-- Reads through descriptors that share an open file hand out its contents: whoever reads,
and whatever is copied or closed in between, the pieces in the order of the calls are the file
from the first offset on. -/
theorem shared_reads_partition {σ : Type} (ops : FsKind → FileOps σ) (v : VfsState σ) (k : FileRef)
    (name : Path) (data : List UInt8) (hfits : data.length≤ramfsDataSize)
    (calls : List SharedCall) (inv : DescriptorInv v) (h : SharedFile v k name)
    (hreads : ReadsShared ops k name data v calls) :
    delivered (runShared ops v calls).1 <+: data.drop (v.openFiles k).offset ∧
    ((runShared ops v calls).2.openFiles k).offset =
      (v.openFiles k).offset+(delivered (runShared ops v calls).1).length ∧
    ∀ before r after, (runShared ops v calls).1=before ++ r :: after →
      (∃ piece, r.2 = .returned 0 piece.length piece ∧
        piece=(data.drop ((v.openFiles k).offset+(delivered before).length)).take r.1 ∧
        (r.1≠0 → (piece=[] ↔ delivered before=data.drop (v.openFiles k).offset))) := by
  obtain ⟨hportions,hoffset⟩ := runShared_portions ops hfits calls inv h hreads
  refine ⟨hportions.within,hoffset,?_⟩
  intro before r after hsplit
  rw [hsplit] at hportions
  obtain ⟨hbefore,hr⟩ := hportions.split
  refine ⟨_,hr,rfl,?_⟩
  intro hlength
  rw [portion_eq_nil hlength]
  exact hbefore.exhausted

section Backends

variable {φ : Type} (others : FsKind → FileOps φ) (alloc : Kmalloc) {v : VfsState (RootFs φ)}
  {name : Path} {data : List UInt8}

/-- A file of ramfs.c is read as a whole. -/
theorem ramfs_contents (hkind : (pathOps v name).1 = .ramfs)
    (hfile : (findFile (pathOps v name).2 v.backend.ramfs).map
      (fun i => (v.backend.ramfs.files i).contents)=some data) :
    Contents (rootOps others alloc) v name data := by
  intro capacity hcapacity
  obtain ⟨i,hi,rfl⟩ := Option.map_eq_some_iff.mp hfile
  rw [hkind]
  change ramfsRead (pathOps v name).2 capacity v.backend.ramfs=_
  rw [ramfsRead,hi,Option.map_some,take_of_length_le hcapacity]

end Backends

section Samples

/-- The path `/f`. -/
def filePath : Path := [47,102]

/-- The tables before any process, and one file of three bytes. -/
def noDescriptors : VfsState (RootFs Unit) :=
  { descriptors := fun _ => blankFd
    openFiles := fun _ => ⟨false,0,0⟩
    mounts := fun _ => ⟨false,false,[],[],.ramfs⟩
    pipes := fun _ => ⟨false,0,0,0,0,0,fun _ => 0⟩
    backend := ⟨⟨fun _ => ⟨true,filePath,some fun i => UInt8.ofNat i,3⟩,[]⟩,()⟩ }

theorem noDescriptors_inv : DescriptorInv noDescriptors := by
  have hnone (q : VfsFd → Bool) (hq : q blankFd=false) :
      tally q noDescriptors.descriptors=0 := tally_eq_zero (fun _ => hq)
  refine ⟨fun i j hi => (nomatch hi),?_,?_,?_,?_,?_⟩
  · intro k
    rw [hnone _ rfl]
    rfl
  · intro k
    rw [hnone _ rfl]
    exact ⟨fun h => (nomatch h),fun h => absurd h (Nat.lt_irrefl 0)⟩
  · intro k
    rw [hnone _ rfl]
    rfl
  · intro k
    rw [hnone _ rfl]
    rfl
  · intro k
    exact ⟨fun h => (nomatch h),fun h => absurd h (Nat.lt_irrefl 0)⟩

/-- `/f` as number 3 of task 1. -/
def fileDescriptor : VfsFd :=
  ⟨true,1,3,filePath,some ⟨0,by decide⟩,.none,none,.none⟩

/-- Task 1 has opened the file and its child, task 2, has a copy. -/
def parentAndChild : VfsState (RootFs Unit) :=
  openFileRetainLocked fileDescriptor.file
    (setSlot ⟨1,by decide⟩ { fileDescriptor with owner := 2 }
      (setSlot ⟨0,by decide⟩ fileDescriptor
        { noDescriptors with
          openFiles := update noDescriptors.openFiles ⟨0,by decide⟩ ⟨true,1,0⟩ }))

theorem parentAndChild_inv : DescriptorInv parentAndChild := by
  have hopened := noDescriptors_inv.installFile ⟨0,by decide⟩ ⟨0,by decide⟩ fileDescriptor
    rfl rfl rfl rfl rfl (fun j hj => (nomatch hj))
  exact hopened.copySlot ⟨1,by decide⟩ ⟨0,by decide⟩ { fileDescriptor with owner := 2 }
    rfl rfl rfl rfl rfl rfl (by decide +kernel)

theorem parentAndChild_shared : SharedFile parentAndChild ⟨0,by decide⟩ filePath := by
  refine ⟨⟨⟨0,by decide⟩,rfl⟩,?_⟩
  decide +kernel

/-- The parent and the child read in turn, in pieces of two bytes. -/
def readInTurn : List (Nat × Int × Nat) := [(1,3,2),(2,3,2),(1,3,2)]

theorem readInTurn_through : ∀ r ∈ readInTurn, Through parentAndChild ⟨0,by decide⟩ r.1 r.2.1 := by
  have hparent : Through parentAndChild ⟨0,by decide⟩ 1 3 :=
    ⟨by decide,⟨0,by decide⟩,by decide +kernel,rfl⟩
  have hchild : Through parentAndChild ⟨0,by decide⟩ 2 3 :=
    ⟨by decide,⟨1,by decide⟩,by decide +kernel,rfl⟩
  intro r hr
  simp only [readInTurn,mem_cons,not_mem_nil,or_false] at hr
  rcases hr with rfl | rfl | rfl
  · exact hparent
  · exact hchild
  · exact hparent

theorem parent_and_child_share :
    delivered (runShared (rootOps oneByteOps none) parentAndChild
        (readInTurn.map (fun r => .read r.1 r.2.1 r.2.2))).1 <+:
      [0,1,2].drop (parentAndChild.openFiles ⟨0,by decide⟩).offset :=
  have hcontents : Contents (rootOps oneByteOps none) parentAndChild filePath [0,1,2] :=
    ramfs_contents oneByteOps none (by decide +kernel) (by decide +kernel)
  (shared_reads_partition (rootOps oneByteOps none) parentAndChild ⟨0,by decide⟩
    filePath [0,1,2] (by decide +kernel) _ parentAndChild_inv parentAndChild_shared
    (readsShared_of_reads _ (by decide +kernel) parentAndChild_shared hcontents readInTurn
      readInTurn_through)).1

end Samples

end ConeOS.Fs
