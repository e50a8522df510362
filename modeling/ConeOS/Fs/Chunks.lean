import ConeOS.Fs.RootFs
import ConeOS.Vfs.Duplicate

namespace ConeOS.Fs

open ConeOS.Library List
open ConeOS.Vfs

section Writing

variable {σ : Type} (ops : FsKind → FileOps σ)

/-- The chunks are written one after the other. -/
def writeChunks (owner : Nat) (number : Int) (chunks : List (List UInt8)) (v : VfsState σ) :
    VfsState σ :=
  chunks.foldl (fun v c => (vfsWrite ops owner number c v).2) v

/-- The offset of the open file behind a descriptor. -/
def offsetOf (v : VfsState σ) (owner : Nat) (number : Int) : Option Nat :=
  match lookup v owner number with
  | none => none
  | some i => (v.descriptors i).file.map (fun k => (v.openFiles k).offset)

/-- A descriptor above the standard ones that is open on a regular file. -/
structure OpenOn (v : VfsState σ) (owner : Nat) (number : Int) (site : FsKind × Path) (i : SlotRef)
    (k : FileRef) : Prop where
  lookup : lookup v owner number=some i
  number : 3≤number
  pipeMode : (v.descriptors i).pipeMode = .none
  device : (v.descriptors i).device = .none
  file : (v.descriptors i).file=some k
  resolves : pathOps v (v.descriptors i).name=site

/-- What a file system keeps for one file: a write of bytes that it takes replaces them, and it
refuses the others. -/
def Replaces (fs : FileOps σ) (path : Path) (Takes : List UInt8 → σ → Prop) : Prop :=
  ∀ b bytes, bytes.length≤ramfsDataSize →
    (Takes bytes b ∧ ∃ b', fs.write path bytes b=(true,b') ∧
      fs.read path ramfsDataSize b'=some bytes) ∨
    ¬Takes bytes b ∧ (fs.write path bytes b).1=false

variable {v : VfsState σ} {owner : Nat} {number : Int} {site : FsKind × Path} {i : SlotRef}
  {k : FileRef}

theorem OpenOn.offset (h : OpenOn v owner number site i k) :
    offsetOf v owner number=some (v.openFiles k).offset := by
  rw [offsetOf,h.lookup]
  dsimp only
  rw [h.file]
  rfl

/-- One write: the offset is that of this write alone. -/
theorem OpenOn.write (h : OpenOn v owner number site i k) {bytes : List UInt8}
    (hlen : bytes.length≤ramfsDataSize) :
    ∃ w r, (vfsWrite ops owner number bytes v).2=w ∧ OpenOn w owner number site i k ∧
      (ops site.1).write site.2 bytes v.backend=r ∧ w.backend=r.2 ∧
      (w.openFiles k).offset=if r.1 then bytes.length else (v.openFiles k).offset := by
  have hkeeps := KeepsDescriptor.standardStreams owner h.lookup
  have hnumber := h.number
  have hopen : ∀ w : VfsState σ, w.descriptors=(ensureStandardStreams owner v).descriptors →
      w.mounts=v.mounts → OpenOn w owner number site i k := by
    intro w hdesc hmounts
    have hfd : w.descriptors i=v.descriptors i := by rw [hdesc,hkeeps.descriptor]
    refine ⟨(lookup_congr (fun j => by rw [hdesc])).trans hkeeps.lookup,hnumber,?_,?_,?_,?_⟩
    · rw [hfd,h.pipeMode]
    · rw [hfd,h.device]
    · rw [hfd,h.file]
    · rw [hfd,pathOps_mounts hmounts,h.resolves]
  rw [vfsWrite_of_lookup _ h.lookup,if_neg (by omega),if_neg (not_not_intro h.pipeMode),
    if_neg (fun hr => by rw [writeRefused] at hr; omega),if_neg (not_not_intro h.device),
    writeFile,pathOps_mounts hkeeps.mounts,h.resolves,h.file,hkeeps.backend]
  dsimp only
  cases hr : (ops site.1).write site.2 bytes v.backend with
  | mk ok b =>
    cases ok with
    | false => exact ⟨_,_,rfl,hopen _ rfl hkeeps.mounts,rfl,rfl,by rw [← hkeeps.openFiles]; rfl⟩
    | true => exact ⟨_,_,rfl,hopen _ rfl hkeeps.mounts,rfl,rfl,by simp [setOffset]⟩

theorem OpenOn.writeChunks (h : OpenOn v owner number site i k) {chunks : List (List UInt8)}
    (hlen : ∀ c ∈ chunks, c.length≤ramfsDataSize) :
    OpenOn (writeChunks ops owner number chunks v) owner number site i k ∧
      (((writeChunks ops owner number chunks v).openFiles k).offset=(v.openFiles k).offset ∨
        ∃ c ∈ chunks, ((writeChunks ops owner number chunks v).openFiles k).offset=c.length) := by
  induction chunks generalizing v with
  | nil => exact ⟨h,.inl rfl⟩
  | cons c cs ih =>
    obtain ⟨w,r,hw,hopen,-,-,hoffset⟩ := h.write ops (hlen c mem_cons_self)
    obtain ⟨hopen',hlast⟩ := ih hopen (fun d hd => hlen d (mem_cons_of_mem c hd))
    rw [Fs.writeChunks,foldl_cons,hw]
    refine ⟨hopen',?_⟩
    rcases hlast with hsame | ⟨d,hd,hlast⟩
    · rw [hoffset] at hsame
      split_ifs at hsame
      · exact .inr ⟨c,mem_cons_self,hsame⟩
      · exact .inl hsame
    · exact .inr ⟨d,mem_cons_of_mem c hd,hlast⟩

end Writing

section Opening

variable {σ : Type} {v : VfsState σ} {owner : Nat} {name : Path} {number : Int}

theorem freeNumber_ge {first n : Nat} (h : freeNumber v owner first=some n) : first≤n := by
  have hmem := mem_of_find?_eq_some h
  rw [mem_range'_1] at hmem
  exact hmem.1

theorem openDescriptor_openOn (h : (openDescriptor owner name .none v).value=number)
    (hn : 0≤number) :
    ∃ i k, OpenOn (openDescriptor owner name .none v).state owner number (pathOps v name) i k ∧
      ((openDescriptor owner name .none v).state.openFiles k).offset=0 := by
  rw [openDescriptor] at h ⊢
  cases hfree : freeNumber v owner 3 with
  | none =>
    rw [hfree] at h
    dsimp only at h
    omega
  | some n =>
    rw [hfree] at h
    dsimp only at h ⊢
    split at h
    · next i k w hslot hfile =>
      dsimp only at h ⊢
      obtain ⟨-,hw⟩ := allocateOpenFileLocked_some hfile
      subst h
      have hdesc : w.descriptors=v.descriptors := by rw [hw]
      have hnone : lookup w owner n=none :=
        (lookup_congr (fun j => by rw [hdesc])).trans (freeNumber_some hfree)
      have hge := freeNumber_ge hfree
      have hmounts : w.mounts=v.mounts := by rw [hw]
      refine ⟨i,k,⟨lookup_setSlot_new hnone (by simp [VfsFd.is]),by omega,?_,?_,?_,?_⟩,?_⟩
      · simp
      · simp
      · simp
      · rw [setSlot_descriptors,Function.update_self]
        exact pathOps_mounts hmounts name
      · rw [setSlot_openFiles,hw]
        simp
    · dsimp only at h
      omega
    · dsimp only at h
      omega

/-- An open takes the name to this file system and path, where there is no device. -/
structure OpensRegular (opening : FsKind → FsOps σ) (cwd : Option Path) (name : Path)
    (v : VfsState σ) (site : FsKind × Path) : Prop where
  resolves : ∃ absolute, resolvePath cwd name ramfsNameSize=some absolute ∧ pathOps v absolute=site
  device : ∀ f, (opening site.1).device=some f → f site.2 = .none

/-- A descriptor that `vfs_open` has just returned for a regular file. -/
theorem vfsOpen_openOn {opening : FsKind → FsOps σ} {cwd : Option Path} {create : Bool}
    {site : FsKind × Path} (hpath : OpensRegular opening cwd name v site)
    (h : (vfsOpen opening cwd owner name create v).value=number) (hn : 0≤number) :
    ∃ i k, OpenOn (vfsOpen opening cwd owner name create v).state owner number site i k ∧
      ((vfsOpen opening cwd owner name create v).state.openFiles k).offset=0 := by
  obtain ⟨absolute,habsolute,hops⟩ := hpath.resolves
  rw [vfsOpen] at h ⊢
  split_ifs at h ⊢ with hname
  · dsimp only at h
    omega
  rw [habsolute] at h ⊢
  dsimp only at h ⊢
  rw [hops] at h ⊢
  cases hstat : statOrCreate (opening site.1) site.2 create v.backend with
  | mk ok b =>
    cases ok with
    | false =>
      rw [hstat] at h
      dsimp only at h
      omega
    | true =>
      have hsite : pathOps (ensureStandardStreams owner { v with backend := b }) absolute=site := by
        rw [← hops]
        exact pathOps_mounts (Carried.ensureStandardStreams owner _).mounts absolute
      rw [hstat] at h
      dsimp only at h ⊢
      cases hdevice : (opening site.1).device with
      | none =>
        rw [hdevice] at h
        exact hsite ▸ openDescriptor_openOn h hn
      | some f =>
        rw [hdevice] at h
        dsimp only at h ⊢
        rw [hpath.device f hdevice] at h ⊢
        exact hsite ▸ openDescriptor_openOn h hn

/-- What the copy loop of cp relies on: the file begins with all that was written, and the
offset is behind it. -/
def WroteAll (ops : FsKind → FileOps σ) (site : FsKind × Path) (v : VfsState σ) (owner : Nat)
    (number : Int) (text : List UInt8) : Prop :=
  (((ops site.1).read site.2 ramfsDataSize v.backend).getD []).take text.length=text ∧
    offsetOf v owner number=some text.length

/-- What ramfs.c can write: the file has its area, or there is room and memory for a new one. -/
def RamfsTakes (alloc : Kmalloc) (name : Path) (r : Ramfs) : Prop :=
  (∃ i, findFile name r=some i ∧ (r.files i).data.isSome=true) ∨
    findFile name r=none ∧ (∃ i, (r.files i).used=false) ∧ alloc.isSome=true

theorem ramfs_replaces {φ : Type} (others : FsKind → FileOps φ) (alloc : Kmalloc) {path : Path}
    (hname : path.length<ramfsNameSize) :
    Replaces (rootOps others alloc .ramfs) path (fun _ b => RamfsTakes alloc path b.ramfs) := by
  intro b bytes hlen
  have hread : ∀ {r : Ramfs} {i}, findFile path r=some i → (r.files i).contents=bytes →
      ramfsRead path ramfsDataSize r=some bytes := by
    intro r i hi hcontents
    simp [ramfsRead,hi,hcontents,hlen]
  have heffect := ramfsWrite_effect alloc path bytes b.ramfs
  have hwrite : (rootOps others alloc .ramfs).write path bytes b =
    ((ramfsWrite alloc path bytes b.ramfs).1,
      { b with ramfs := (ramfsWrite alloc path bytes b.ramfs).2 }) := rfl
  rw [hwrite]
  generalize ramfsWrite alloc path bytes b.ramfs=w at heffect
  cases heffect with
  | tooLong hlong => omega
  | full _ hfind hfull => exact .inr ⟨by simp [RamfsTakes,hfind,hfull],rfl⟩
  | areaMissing _ hfind hdata => exact .inr ⟨by simp [RamfsTakes,hfind,hdata],rfl⟩
  | abandoned _ hfind _ halloc => exact .inr ⟨by simp [RamfsTakes,hfind,halloc],rfl⟩
  | @replaced i data _ hfind hdata =>
    refine .inl ⟨.inl ⟨i,hfind,by rw [hdata]; rfl⟩,_,rfl,?_⟩
    refine hread ((findFile_written i bytes data).trans hfind) ?_
    rw [setFile_files_self,written_contents]
  | @created i data _ hfind hfree halloc =>
    refine .inl ⟨.inr ⟨hfind,⟨i,hfree⟩,by rw [halloc]; rfl⟩,_,rfl,?_⟩
    refine hread (findFile_setFile_new hfind rfl (take_name hname)) ?_
    rw [setFile_files_self,written_contents]

section Samples

/-- Task 1 with its standard streams, on a file system that holds `/hello.txt`. -/
def standardTask : VfsState (RootFs Unit) :=
  { descriptors := fun i =>
      if i.val<3 then ⟨true,1,i.val,standardName i.val,none,.console,none,.none⟩
      else blankFd
    openFiles := fun _ => ⟨false,0,0⟩
    mounts := fun _ => ⟨false,false,[],[],.ramfs⟩
    pipes := fun _ => ⟨false,0,0,0,0,0,fun _ => 0⟩
    backend := ⟨ramfsInit (some fun _ => 0),()⟩ }

/-- `/notes` is created and open as number 3. -/
def notesOpened : Outcome (RootFs Unit) :=
  vfsOpen (openOps oneByteOps (some fun _ => 0)) (some [slash]) 1 notesPath true standardTask

theorem notesOpened_value : notesOpened.value=3 := by decide +kernel

theorem notes_regular : OpensRegular (openOps oneByteOps (some fun _ => 0)) (some [slash])
    notesPath standardTask (.ramfs,notesPath) :=
  ⟨⟨notesPath,by decide +kernel,by decide +kernel⟩,fun _ hf => by cases hf⟩

end Samples

end Opening

end ConeOS.Fs
