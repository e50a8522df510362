import ConeOS.Fs.RootFs

namespace ConeOS.Fs

open ConeOS.Library List
open ConeOS.Vfs

/-- A path below the root whose parent is a directory. -/
structure HasParent (directories : List Path) (path : Path) : Prop where
  below : ∃ stack c, (∀ d ∈ stack ++ [c], IsComponent d) ∧ path=printPath (stack ++ [c]) ∧
    printPath stack ∈ directories

/-- The files and directories form a tree. -/
structure Tree (r : Ramfs) : Prop where
  file : ∀ i, (r.files i).used=true → HasParent r.directories (r.files i).name
  directory : ∀ d ∈ r.directories, d≠rootPath → HasParent r.directories d
  apart : ∀ i, (r.files i).used=true → (r.files i).name ∉ r.directories

section Directories

variable {r : Ramfs} {path : Path} {stack : List Path}

theorem HasParent.mono {ds ds' : List Path} (h : HasParent ds path) (hsub : ∀ d ∈ ds, d ∈ ds') :
    HasParent ds' path := by
  obtain ⟨stack,c,hc,hp,hmem⟩ := h.below
  exact ⟨stack,c,hc,hp,hsub _ hmem⟩

theorem Tree.mkdir (h : Tree r)
    (hplace : r.directories.length<ramfsMaxDirectories → path ∉ r.directories →
      HasParent r.directories path ∧ ∀ i, (r.files i).used=true → (r.files i).name≠path) :
    Tree (ramfsMkdir path r).2 := by
  rw [ramfsMkdir]
  split_ifs with hroom hdir hlen
  · exact h
  · exact h
  · exact h
  have hnew : path ∉ r.directories := by simpa [ramfsIsDirectory] using hdir
  rw [not_or,not_le] at hroom
  obtain ⟨hparent,hfile⟩ := hplace hroom.2 hnew
  have hsub : ∀ d ∈ r.directories, d ∈ r.directories ++ [path] :=
    fun d hd => mem_append_left _ hd
  refine ⟨fun i hi => (h.file i hi).mono hsub,?_,?_⟩
  · intro d hd hroot
    rcases mem_append.mp hd with hd | hd
    · exact (h.directory d hd hroot).mono hsub
    · rw [mem_singleton.mp hd]
      exact hparent.mono hsub
  · intro i hi hmem
    rcases mem_append.mp hmem with hmem | hmem
    · exact h.apart i hi hmem
    · exact hfile i hi (mem_singleton.mp hmem)

/-- Something below the path is a file or a directory. -/
def HasDescendant (path : Path) (r : Ramfs) : Prop :=
  (∃ i, (r.files i).used=true ∧ (path ++ [slash]) <+: (r.files i).name) ∨
    ∃ d ∈ r.directories, (path ++ [slash]) <+: d

theorem directoryPrefix_of_normalised {c : Path} (hc : IsComponent c) :
    directoryPrefix (printPath (stack ++ [c]))=printPath (stack ++ [c]) ++ [slash] := by
  have hlast := printPath_getLast stack hc
  rw [List.head?_reverse] at hlast
  rw [directoryPrefix,if_neg hlast]

theorem child_prefix (hs : stack≠[]) (c : Path) :
    printPath stack ++ [slash] <+: printPath (stack ++ [c]) := by
  rw [printPath_append hs]
  exact ⟨c,by simp⟩

theorem ramfsRmdir_some (h : (ramfsRmdir path r).1=true) :
    path≠rootPath ∧ path ∈ r.directories ∧
      (∀ i, (r.files i).used=true → ¬ directoryPrefix path <+: (r.files i).name) ∧
      (∀ d ∈ r.directories.erase path, ¬ directoryPrefix path <+: d) ∧
      (ramfsRmdir path r).2 = { r with directories := r.directories.erase path } := by
  simp only [ramfsRmdir,eraseIdx_idxOf_eq_erase] at h ⊢
  split_ifs at h ⊢ with hroot hmem hlen hfile hdir
  rw [not_or] at hroot
  refine ⟨hroot.1,by simpa using hmem,?_,?_,rfl⟩
  · intro i hi hpre
    apply hfile
    rw [any_eq_true]
    refine ⟨i,mem_finRange i,?_⟩
    rw [hi,Bool.true_and]
    exact isPrefixOf_iff_prefix.mpr hpre
  · intro d hd hpre
    apply hdir
    rw [any_eq_true]
    exact ⟨d,hd, isPrefixOf_iff_prefix.mpr hpre⟩

theorem ramfsRmdir_false (h : (ramfsRmdir path r).1=false) : (ramfsRmdir path r).2=r := by
  simp only [ramfsRmdir] at h ⊢
  split_ifs at h ⊢ <;> rfl

theorem ramfsRmdir_no_descendant (hs : ∀ c ∈ stack, IsComponent c)
    (h : (ramfsRmdir (printPath stack) r).1=true) : ¬ HasDescendant (printPath stack) r := by
  obtain ⟨hroot,-,hfiles,hdirs,-⟩ := ramfsRmdir_some h
  rcases eq_nil_or_concat stack with rfl | ⟨cs,c,rfl⟩
  · exact absurd rfl hroot
  rw [concat_eq_append] at hs hfiles hdirs ⊢
  rw [directoryPrefix_of_normalised (hs c (by simp))] at hfiles hdirs
  rintro (⟨i,hi,hpre⟩ | ⟨d,hd,hpre⟩)
  · exact hfiles i hi hpre
  refine hdirs d ((mem_erase_of_ne ?_).mpr hd) hpre
  rintro rfl
  have hlen := hpre.length_le
  rw [length_append,length_singleton] at hlen
  omega

theorem Tree.rmdir (h : Tree r) (path : Path) : Tree (ramfsRmdir path r).2 := by
  cases hr : (ramfsRmdir path r).1 with
  | false =>
    rw [ramfsRmdir_false hr]
    exact h
  | true =>
    obtain ⟨hroot,hmem,hfiles,hdirs,hnew⟩ := ramfsRmdir_some hr
    obtain ⟨stack,c,hc,rfl,-⟩ := (h.directory path hmem hroot).below
    rw [directoryPrefix_of_normalised (hc c (by simp))] at hfiles hdirs
    rw [hnew]
    -- a parent that stays is not the one removed: its child would have been found
    have hstays : ∀ p, HasParent r.directories p →
        ¬ printPath (stack ++ [c]) ++ [slash] <+: p →
        HasParent (r.directories.erase (printPath (stack ++ [c]))) p := by
      intro p hp hpre
      obtain ⟨stack',c',hc',rfl,hmem'⟩ := hp.below
      refine ⟨stack',c',hc',rfl,(mem_erase_of_ne ?_).mpr hmem'⟩
      intro heq
      apply hpre
      rw [← heq]
      apply child_prefix
      rintro rfl
      apply hroot
      rw [← heq]
      rfl
    refine ⟨fun i hi => hstays _ (h.file i hi) (hfiles i hi),?_,?_⟩
    · intro d hd hdroot
      exact hstays d (h.directory d (mem_of_mem_erase hd) hdroot) (hdirs d hd)
    · intro i hi hmem'
      exact h.apart i hi (mem_of_mem_erase hmem')

end Directories

section Files

variable {r : Ramfs} {path : Path}

/-- A place for a new file. -/
def FilePlace (path : Path) (r : Ramfs) : Prop :=
  HasParent r.directories path ∧ path ∉ r.directories

/-- A write takes a slot for a name only in a place for it. -/
def PlacesFile (path : Path) (bytes : List UInt8) (r : Ramfs) : Prop :=
  bytes.length≤ramfsDataSize → findFile path r=none → (∃ i, (r.files i).used=false) →
    FilePlace path r

theorem Tree.setFile (h : Tree r) {i : Fin ramfsMaxFiles} {f : RamfsFile}
    (hf : f.used=true → HasParent r.directories f.name ∧ f.name ∉ r.directories) :
    Tree (setFile i f r) := by
  refine ⟨?_,h.directory,?_⟩
  · intro j hj
    by_cases hji : j=i
    · rw [hji,setFile_files_self] at hj ⊢
      exact (hf hj).1
    · rw [setFile_files_of_ne hji] at hj ⊢
      exact h.file j hj
  intro j hj
  by_cases hji : j=i
  · rw [hji,setFile_files_self] at hj ⊢
    exact (hf hj).2
  · rw [setFile_files_of_ne hji] at hj ⊢
    exact h.apart j hj

theorem Tree.write (h : Tree r) {alloc : Kmalloc} {bytes : List UInt8}
    (hshort : path.length<ramfsNameSize) (hplace : PlacesFile path bytes r) :
    Tree (ramfsWrite alloc path bytes r).2 := by
  have heffect := ramfsWrite_effect alloc path bytes r
  generalize ramfsWrite alloc path bytes r=w at heffect
  cases heffect with
  | tooLong | full | areaMissing => exact h
  | @replaced i data hlen hfind hdata =>
    exact h.setFile (fun hu => ⟨h.file i hu,h.apart i hu⟩)
  | @abandoned i hlen hfind hfree =>
    refine h.setFile (fun _ => ?_)
    rw [RamfsFile.claimed,take_name hshort]
    exact hplace hlen hfind ⟨i,hfree⟩
  | @created i data hlen hfind hfree =>
    refine h.setFile (fun _ => ?_)
    rw [RamfsFile.written,RamfsFile.claimed,take_name hshort]
    exact hplace hlen hfind ⟨i,hfree⟩

theorem Tree.unlink (h : Tree r) (path : Path) : Tree (ramfsUnlink path r).2 := by
  rw [ramfsUnlink]
  split
  · exact h
  · exact h.setFile (fun hu => by cases hu)

end Files

section Runs

variable {φ : Type} (others : FsKind → FileOps φ) (cwd : Option Path) {path : Path}
  {alloc : Kmalloc} {create : Bool} {owner : Nat}

inductive TreeCall
  | openFile (alloc : Kmalloc) (owner : Nat) (path : Path) (create : Bool)
  | write (alloc : Kmalloc) (owner : Nat) (number : Int) (buffer : List UInt8)
  | mkdir (path : Path)
  | unlink (path : Path)
  | rmdir (path : Path)

def TreeCall.run (v : VfsState (RootFs φ)) : TreeCall → VfsState (RootFs φ)
  | .openFile alloc owner path create =>
    (vfsOpen (openOps others alloc) cwd owner path create v).state
  | .write alloc owner number buffer => (vfsWrite (rootOps others alloc) owner number buffer v).2
  | .mkdir path => (vfsMkdir (rootOps others none) cwd path v).2
  | .unlink path => (vfsUnlink (rootOps others none) cwd path v).2
  | .rmdir path => (vfsRmdir (rootOps others none) cwd path v).2

def runTree (cs : List TreeCall) (v : VfsState (RootFs φ)) : VfsState (RootFs φ) :=
  cs.foldl (TreeCall.run others cwd) v

/-- A path in normal form that no mount takes away from ramfs.c. -/
structure RamfsPath (v : VfsState (RootFs φ)) (path : Path) : Prop where
  normalised : Normalised path
  short : path.length<ramfsNameSize
  ops : pathOps v path=(.ramfs,path)

/-- The calls are on paths of ramfs.c. -/
def TreeCall.onRamfs (v : VfsState (RootFs φ)) : TreeCall → Prop
  | .openFile _ _ path _ => RamfsPath v path
  | .write _ _ _ _ => True
  | .mkdir path => RamfsPath v path
  | .unlink path => RamfsPath v path
  | .rmdir path => RamfsPath v path

/-- A new name is only made where there is a place for it: its parent is a directory, and it is
not the name of something of the other kind. Nothing is asked of a call that makes no name: the
tables are full, the name is there already, or the descriptor is 0, a device, a pipe or holds no
file. -/
def TreeCall.places (v : VfsState (RootFs φ)) : TreeCall → Prop
  | .openFile _ _ path create => create=true → PlacesFile path [] v.backend.ramfs
  | .write _ owner number buffer => ∀ i path, number≠0 →
    lookup (ensureStandardStreams owner v) owner number=some i →
    ((ensureStandardStreams owner v).descriptors i).file.isSome=true →
    pathOps v ((ensureStandardStreams owner v).descriptors i).name=(.ramfs,path) →
    ((ensureStandardStreams owner v).descriptors i).pipeMode = .none →
    ((ensureStandardStreams owner v).descriptors i).device = .none →
    PlacesFile path buffer v.backend.ramfs
  | .mkdir path => v.backend.ramfs.directories.length<ramfsMaxDirectories →
    path ∉ v.backend.ramfs.directories →
    HasParent v.backend.ramfs.directories path ∧
      ∀ i, (v.backend.ramfs.files i).used=true → (v.backend.ramfs.files i).name≠path
  | .unlink _ => True
  | .rmdir _ => True

/-- Every name in the table fits its array. -/
def NamesShort (v : VfsState (RootFs φ)) : Prop :=
  ∀ i, (v.descriptors i).name.length<ramfsNameSize

variable {others cwd} {v : VfsState (RootFs φ)}

theorem NamesShort.setSlot (h : NamesShort v) {i : SlotRef} {fd : VfsFd}
    (hfd : fd.name.length<ramfsNameSize) : NamesShort (setSlot i fd v) := by
  intro j
  by_cases hj : j=i
  · rw [hj,setSlot_descriptors,Function.update_self]
    exact hfd
  · rw [setSlot_descriptors,Function.update_of_ne hj]
    exact h j

theorem NamesShort.of_descriptors {w : VfsState (RootFs φ)} (h : NamesShort v)
    (hd : w.descriptors=v.descriptors) : NamesShort w := by
  intro i
  rw [hd]
  exact h i

theorem standardName_short (n : Nat) : (standardName n).length<ramfsNameSize := by
  rcases n with _ | _ | n
  · decide +kernel
  · decide +kernel
  · show ("stderr".toUTF8.toList).length<ramfsNameSize
    decide +kernel

theorem NamesShort.standardStreams (h : NamesShort v) (owner : Nat) :
    NamesShort (ensureStandardStreams owner v) :=
  ensureStandardStreams_rule owner (fun _ n _ hw _ _ => hw.setSlot (standardName_short n)) h

theorem openDescriptor_backend (owner : Nat) (name : Path) (device : DevfsDevice)
    (v : VfsState (RootFs φ)) : (openDescriptor owner name device v).state.backend=v.backend := by
  rw [openDescriptor]
  split
  · rfl
  split
  · next hfile =>
    rw [(allocateOpenFileLocked_some hfile).2]
    rfl
  · next k w _ hfile =>
    rw [(allocateOpenFileLocked_some hfile).2,openFileReleaseLocked]
    dsimp only
    split_ifs <;> rfl
  · next hfile => rw [allocateOpenFileLocked_none hfile]

theorem NamesShort.openDescriptor (h : NamesShort v) (owner : Nat) {name : Path}
    (hname : name.length<ramfsNameSize) (device : DevfsDevice) :
    NamesShort (openDescriptor owner name device v).state := by
  rw [Vfs.openDescriptor]
  split
  · exact h
  split
  · next hfile =>
    rw [(allocateOpenFileLocked_some hfile).2]
    exact NamesShort.setSlot (h.of_descriptors rfl) hname
  · next hfile =>
    rw [(allocateOpenFileLocked_some hfile).2]
    exact h.of_descriptors (by simp)
  · next hfile =>
    rw [allocateOpenFileLocked_none hfile]
    exact h

/-- What the run keeps. -/
structure TreeState (v : VfsState (RootFs φ)) : Prop where
  tree : Tree v.backend.ramfs
  names : NamesShort v

theorem RamfsPath.resolves (h : RamfsPath v path) (cwd : Option Path) :
    resolvePath cwd path ramfsNameSize=some path := by
  obtain ⟨stack,hs,rfl⟩ := h.normalised
  exact resolvePath_printPath cwd hs h.short (by decide)

theorem statOrCreate_tree {b : RootFs φ}
    (h : Tree b.ramfs) (hshort : path.length<ramfsNameSize)
    (hplace : create=true → PlacesFile path [] b.ramfs) :
    Tree (statOrCreate (openOps others alloc .ramfs) path create b).2.ramfs := by
  rw [statOrCreate]
  split_ifs with hstat hcreate
  · exact h
  · exact h.write hshort (hplace hcreate)
  · exact h

theorem TreeState.openFile (h : TreeState v) (hpath : RamfsPath v path)
    (hplace : create=true → PlacesFile path [] v.backend.ramfs) :
    TreeState (vfsOpen (openOps others alloc) cwd owner path create v).state := by
  have htree : Tree (statOrCreate (openOps others alloc .ramfs) path create v.backend).2.ramfs :=
    statOrCreate_tree h.tree hpath.short hplace
  rw [vfsOpen]
  split_ifs
  · exact h
  rw [hpath.resolves]
  dsimp only
  rw [hpath.ops]
  dsimp only
  cases hstat : statOrCreate (openOps others alloc .ramfs) path create v.backend with
  | mk ok b =>
    rw [hstat] at htree
    have hnames : NamesShort { v with backend := b } := h.names.of_descriptors rfl
    cases ok with
    | false => exact ⟨htree,hnames⟩
    | true =>
      refine ⟨?_,(hnames.standardStreams owner).openDescriptor owner hpath.short _⟩
      rw [openDescriptor_backend,ensureStandardStreams_backend]
      exact htree

theorem rootOps_write_other {kind : FsKind} (hkind : kind ≠ .ramfs) (alloc : Kmalloc) (path : Path)
    (bytes : List UInt8) (b : RootFs φ) :
    ((rootOps others alloc kind).write path bytes b).2.ramfs=b.ramfs := by
  cases kind with
  | ramfs => exact absurd rfl hkind
  | fat32 | devfs => rfl

theorem writeFile_effect (others : FsKind → FileOps φ) (alloc : Kmalloc) (fd : VfsFd)
    (buffer : List UInt8) (u : VfsState (RootFs φ)) :
    (writeFile (rootOps others alloc) fd buffer u).2.descriptors=u.descriptors ∧
      ((writeFile (rootOps others alloc) fd buffer u).2.backend.ramfs=u.backend.ramfs ∨
        ∃ path, fd.file.isSome=true ∧ pathOps u fd.name=(.ramfs,path) ∧
          (writeFile (rootOps others alloc) fd buffer u).2.backend.ramfs =
            (ramfsWrite alloc path buffer u.backend.ramfs).2) := by
  cases hops : pathOps u fd.name with
  | mk kind path =>
    cases hfile : fd.file with
    | none =>
      rw [writeFile,hops,hfile]
      exact ⟨rfl,.inl rfl⟩
    | some k =>
      cases hwrite : (rootOps others alloc kind).write path buffer u.backend with
      | mk ok b =>
        have hstate : (writeFile (rootOps others alloc) fd buffer u).2.descriptors=u.descriptors ∧
            (writeFile (rootOps others alloc) fd buffer u).2.backend=b := by
          rw [writeFile,hops,hfile]
          dsimp only
          rw [hwrite]
          cases ok <;> exact ⟨rfl,rfl⟩
        refine ⟨hstate.1,?_⟩
        rw [hstate.2]
        by_cases hkind : kind = .ramfs
        · subst hkind
          refine .inr ⟨path,rfl,rfl,?_⟩
          have hb : ((rootOps others alloc .ramfs).write path buffer u.backend).2=b := by
            rw [hwrite]
          rw [← hb]
          rfl
        · refine .inl ?_
          rw [← rootOps_write_other hkind alloc path buffer u.backend,hwrite]

theorem TreeState.write (h : TreeState v) {number : Int}
    {buffer : List UInt8} (hplace : (TreeCall.write alloc owner number buffer).places v) :
    TreeState (vfsWrite (rootOps others alloc) owner number buffer v).2 := by
  have hnames := h.names.standardStreams owner
  have htree := h.tree
  have hmounts := (Carried.ensureStandardStreams owner v).mounts
  rw [TreeCall.places] at hplace
  rw [← ensureStandardStreams_backend owner v] at htree hplace
  rw [vfsWrite]
  dsimp only
  have hu : TreeState (ensureStandardStreams owner v) := ⟨htree,hnames⟩
  cases hl : lookup (ensureStandardStreams owner v) owner number with
  | none => exact hu
  | some i =>
    dsimp only
    split_ifs with hlen hpipe hzero hdevice
    · exact hu
    · exact hu
    · exact hu
    · exact hu
    obtain ⟨hdesc,heffect⟩ := writeFile_effect others alloc
      ((ensureStandardStreams owner v).descriptors i) buffer (ensureStandardStreams owner v)
    refine ⟨?_,hnames.of_descriptors hdesc⟩
    rcases heffect with hsame | ⟨path,hfile,hops,hwritten⟩
    · rw [hsame]
      exact htree
    rw [hwritten]
    refine htree.write ?_ (hplace i path hzero hl hfile ?_ (not_not.mp hpipe) (not_not.mp hdevice))
    · have hle := pathOps_length_le (ensureStandardStreams owner v)
        ((ensureStandardStreams owner v).descriptors i).name
      rw [hops] at hle
      exact lt_of_le_of_lt hle (hnames i)
    · rw [← hops]
      exact (pathOps_mounts hmounts _).symm

theorem TreeState.onPath (h : TreeState v) (hpath : RamfsPath v path)
    {op : FileOps (RootFs φ) → Path → RootFs φ → Bool × RootFs φ} {ramfsOp : Ramfs → Bool × Ramfs}
    (hop : op (ramfsOps none) path=Fs.onRamfs ramfsOp) (htree : Tree (ramfsOp v.backend.ramfs).2) :
    TreeState (onPath (rootOps others none) op cwd path v).2 := by
  rw [Vfs.onPath,hpath.resolves]
  dsimp only
  rw [hpath.ops]
  refine ⟨?_,h.names.of_descriptors rfl⟩
  show Tree (op (ramfsOps none) path v.backend).2.ramfs
  rw [hop]
  exact htree

theorem TreeState.run (h : TreeState v) {c : TreeCall} (hpath : c.onRamfs v) (hplace : c.places v) :
    TreeState (c.run others cwd v) := by
  cases c with
  | openFile => exact h.openFile hpath hplace
  | write => exact h.write hplace
  | mkdir path => exact h.onPath hpath rfl (h.tree.mkdir hplace)
  | unlink path => exact h.onPath hpath rfl (h.tree.unlink path)
  | rmdir path => exact h.onPath hpath rfl (h.tree.rmdir path)

variable (others cwd)

/-- Every call of a run is on paths of ramfs.c and makes names only where there is a place. -/
def placesAll : List TreeCall → VfsState (RootFs φ) → Prop
  | [], _ => True
  | c :: cs, v => c.onRamfs v ∧ c.places v ∧ placesAll cs (c.run others cwd v)

variable {others cwd}

theorem TreeState.runTree (h : TreeState v) {cs : List TreeCall}
    (hcs : placesAll others cwd cs v) : TreeState (runTree others cwd cs v) := by
  induction cs generalizing v with
  | nil => exact h
  | cons c cs ih => exact ih (h.run hcs.1 hcs.2.1) hcs.2.2

end Runs

section Boot

variable {φ : Type} {c : Path} {r : Ramfs}

theorem HasParent.root {directories : List Path} (hroot : rootPath ∈ directories)
    (hc : IsComponent c) : HasParent directories (slash :: c) :=
  ⟨[],c,by simpa using hc,by rw [nil_append,printPath_singleton],hroot⟩

theorem isComponent_of_decide
    (h : (decide (c≠[]) && decide (c≠[Vfs.dot]) && decide (c≠[Vfs.dot,Vfs.dot]) &&
      decide (slash ∉ c))=true) : IsComponent c := by
  simp only [Bool.and_eq_true,decide_eq_true_eq] at h
  exact ⟨h.1.1.1,h.1.1.2,h.1.2,h.2⟩

theorem mem_ramfsMkdir {d : Path} (h : d ∈ r.directories) (path : Path) :
    d ∈ (ramfsMkdir path r).2.directories := by
  rw [ramfsMkdir]
  split_ifs
  · exact h
  · exact h
  · exact h
  · exact mem_append_left _ h

theorem Tree.mkdir_below_root (h : Tree r) (hroot : rootPath ∈ r.directories)
    (hfiles : ∀ i, (r.files i).used=false) {path : Path} (hc : IsComponent c)
    (hpath : path=slash :: c) :
    Tree (ramfsMkdir path r).2 ∧ rootPath ∈ (ramfsMkdir path r).2.directories ∧
      ∀ i, ((ramfsMkdir path r).2.files i).used=false := by
  refine ⟨h.mkdir (fun _ _ => ⟨?_,?_⟩),mem_ramfsMkdir hroot path,?_⟩
  · rw [hpath]
    exact .root hroot hc
  · intro i hi
    rw [hfiles i] at hi
    cases hi
  · intro i
    rw [ramfsMkdir_files]
    exact hfiles i

theorem ramfsInit_tree (alloc : Kmalloc) : Tree (ramfsInit alloc) := by
  have hfirst : (ramfsMkdir rootPath ⟨fun _ => ⟨false,[],none,0⟩,[]⟩).2 =
      ⟨fun _ => ⟨false,[],none,0⟩,[rootPath]⟩ := by
    rw [ramfsMkdir,if_neg (by decide),if_neg (by decide),if_neg (by decide)]
    rfl
  have hroot : Tree ⟨fun _ => ⟨false,[],none,0⟩,[rootPath]⟩ := by
    refine ⟨fun i hi => (by cases hi),?_,fun i hi => (by cases hi)⟩
    intro d hd hne
    exact absurd (mem_singleton.mp hd) hne
  obtain ⟨hbin,hrbin,hfbin⟩ := hroot.mkdir_below_root mem_cons_self (fun _ => rfl)
    (isComponent_of_decide (by decide : _ = true) : IsComponent [98,105,110])
    (by decide +kernel : binPath=_)
  obtain ⟨hdev,hrdev,hfdev⟩ := hbin.mkdir_below_root hrbin hfbin
    (isComponent_of_decide (by decide : _ = true) : IsComponent [100,101,118])
    (by decide +kernel : "/dev".toUTF8.toList=_)
  obtain ⟨hdisk,hrdisk,-⟩ := hdev.mkdir_below_root hrdev hfdev
    (isComponent_of_decide (by decide : _ = true) : IsComponent [100,105,115,107])
    (by decide +kernel : "/disk".toUTF8.toList=_)
  have hhello : "/hello.txt".toUTF8.toList =
      slash :: [104,101,108,108,111,46,116,120,116] := by
    decide +kernel
  rw [ramfsInit,hfirst]
  refine hdisk.write (by decide +kernel) (fun _ _ _ => ⟨?_,by decide +kernel⟩)
  rw [hhello]
  exact .root hrdisk (isComponent_of_decide (by decide))

theorem installMount_backend (path type : Path) (kind : FsKind) (removable : Bool)
    (v : VfsState (RootFs φ)) : (installMount path type kind removable v).2.backend=v.backend := by
  unfold installMount
  split
  · rfl
  · split <;> rfl

/-- The tables of `vfs_init` before the standard streams. -/
def devMounted (backend : RootFs φ) : VfsState (RootFs φ) :=
  (installMount "/dev".toUTF8.toList "devfs".toUTF8.toList .devfs false
    { descriptors := fun _ => blankFd
      openFiles := fun _ => ⟨false,0,0⟩
      mounts := fun _ => ⟨false,false,[],[],.ramfs⟩
      pipes := fun _ => ⟨false,0,0,0,0,0,fun _ => 0⟩
      backend := backend }).2

theorem vfsInit_eq (b : RootFs φ) : vfsInit b=ensureStandardStreams 0 (devMounted b) := by
  unfold vfsInit
  rfl

theorem vfsInit_backend (b : RootFs φ) : (vfsInit b).backend=b := by
  rw [vfsInit_eq,ensureStandardStreams_backend,devMounted,installMount_backend]

theorem vfsInit_pathOps (b : RootFs φ) (path : Path) :
    pathOps (vfsInit b) path=pathOps (devMounted b) path := by
  rw [vfsInit_eq]
  exact pathOps_mounts (Carried.ensureStandardStreams 0 _).mounts path

theorem vfsInit_treeState (alloc : Kmalloc) (b : φ) :
    TreeState (vfsInit (⟨ramfsInit alloc,b⟩ : RootFs φ)) := by
  refine ⟨?_,?_⟩
  · rw [vfsInit_backend]
    exact ramfsInit_tree alloc
  rw [vfsInit_eq]
  apply NamesShort.standardStreams
  intro i
  rw [devMounted,(installMount_tables _ _ _ _ _).1]
  exact (by decide : (0 : Nat)<ramfsNameSize)

/-- From `ramfs_init` and `vfs_init` on, as long as names are made only where there is a place
for them, the files and directories form a tree; and a directory is never removed while there
is something below it, whatever was done before. -/
theorem ramfs_stays_a_tree (others : FsKind → FileOps φ) (cwd : Option Path) (alloc : Kmalloc)
    (b : φ) (cs : List TreeCall)
    (hcs : placesAll others cwd cs (vfsInit ⟨ramfsInit alloc,b⟩)) :
    Tree (runTree others cwd cs (vfsInit ⟨ramfsInit alloc,b⟩)).backend.ramfs ∧
      ∀ (v : VfsState (RootFs φ)) (path : Path), RamfsPath v path →
        (vfsRmdir (rootOps others none) cwd path v).1=true →
        ¬ HasDescendant path v.backend.ramfs := by
  refine ⟨((vfsInit_treeState alloc b).runTree hcs).tree,?_⟩
  intro v path hpath hrm
  obtain ⟨stack,hs,rfl⟩ := hpath.normalised
  apply ramfsRmdir_no_descendant hs
  rw [vfsRmdir,onPath,hpath.resolves] at hrm
  dsimp only at hrm
  rw [hpath.ops] at hrm
  exact hrm

section Samples

def plainOps : FsKind → FileOps Unit := fun _ =>
  { stat := fun _ _ => none
    create := fun _ b => (false,b)
    device := none
    read := fun _ _ _ => none
    write := fun _ _ b => (false,b)
    mkdir := fun _ b => (false,b)
    unlink := fun _ b => (false,b)
    rmdir := fun _ b => (false,b) }

def bootedFs : RootFs Unit := ⟨ramfsInit (some fun _ => 0),()⟩

/-- The paths `/x` and `/x/y`. -/
def pathX : Path := [47,120]
def pathXY : Path := [47,120,47,121]

theorem letters_component : ∀ c ∈ ([[120],[121]] : List Path), IsComponent c := by
  intro c hc
  rw [mem_cons,mem_singleton] at hc
  rcases hc with rfl | rfl <;> exact letter_component _ (by decide) (by decide)

theorem pathX_ramfs : RamfsPath (vfsInit bootedFs) pathX := by
  refine ⟨⟨[[120]],by simpa using letters_component [120] mem_cons_self,by decide⟩,by decide,?_⟩
  rw [vfsInit_pathOps]
  decide +kernel

theorem pathXY_ramfs : RamfsPath (vfsInit bootedFs) pathXY := by
  refine ⟨⟨_,letters_component,by decide⟩,by decide,?_⟩
  rw [vfsInit_pathOps]
  decide +kernel

theorem RamfsPath.mkdir {v : VfsState (RootFs Unit)} {path : Path} (h : RamfsPath v path) :
    vfsMkdir (rootOps plainOps none) none path v =
      ((ramfsMkdir path v.backend.ramfs).1,
        { v with backend := ⟨(ramfsMkdir path v.backend.ramfs).2,()⟩ }) := by
  rw [vfsMkdir,onPath,h.resolves]
  dsimp only
  rw [h.ops]
  rfl

theorem RamfsPath.after_mkdir {v : VfsState (RootFs Unit)} {path path' : Path}
    (h : RamfsPath v path) (h' : RamfsPath v path') :
    RamfsPath ((TreeCall.mkdir path).run plainOps none v) path' := by
  rw [TreeCall.run,h.mkdir]
  exact ⟨h'.normalised,h'.short,(pathOps_mounts rfl path').trans h'.ops⟩

/-- `/x` and `/x/y` are made; then `/x` is not empty. -/
def nestedCalls : List TreeCall := [.mkdir pathX,.mkdir pathXY,.rmdir pathX]

theorem nested_directories_keep_the_tree :
    Tree (runTree plainOps none nestedCalls (vfsInit bootedFs)).backend.ramfs := by
  have hxy := pathX_ramfs.after_mkdir pathXY_ramfs
  refine (ramfs_stays_a_tree plainOps none (some fun _ => 0) () nestedCalls ⟨pathX_ramfs,?_,hxy,?_,
    hxy.after_mkdir (pathX_ramfs.after_mkdir pathX_ramfs),trivial,trivial⟩).1
  · rw [TreeCall.places,vfsInit_backend]
    exact fun _ _ => ⟨.root (by decide +kernel) (letters_component [120] mem_cons_self),
      by decide +kernel⟩
  · show (TreeCall.mkdir pathXY).places ((TreeCall.mkdir pathX).run plainOps none (vfsInit bootedFs))
    rw [TreeCall.places,TreeCall.run,pathX_ramfs.mkdir,vfsInit_backend]
    exact fun _ _ => ⟨⟨[[120]],[121],by simpa using letters_component,by decide,by decide +kernel⟩,
      by decide +kernel⟩

/-- `/x/y` is made although there is no `/x`. -/
theorem directory_without_parent :
    (vfsMkdir (rootOps plainOps none) none pathXY (vfsInit bootedFs)).1=true ∧
    ¬ Tree (vfsMkdir (rootOps plainOps none) none pathXY (vfsInit bootedFs)).2.backend.ramfs := by
  rw [pathXY_ramfs.mkdir,vfsInit_backend]
  refine ⟨by decide +kernel,fun htree => ?_⟩
  have hmem : pathXY ∈ (ramfsMkdir pathXY bootedFs.ramfs).2.directories := by decide +kernel
  obtain ⟨stack,c,hc,hp,hparent⟩ := (htree.directory pathXY hmem (by decide)).below
  have hstack : stack ++ [c]=[[120],[121]] := by
    rw [show pathXY=printPath [[120],[121]] by decide] at hp
    have hprinted := components_printPath letters_component (by simp)
    rw [hp,components_printPath hc (by simp),List.cons.injEq] at hprinted
    exact hprinted.2
  obtain ⟨rfl,-⟩ := append_inj' (show stack ++ [c]=[[120]] ++ [[121]] from hstack) rfl
  exact absurd hparent (by decide +kernel)

end Samples

end Boot

end ConeOS.Fs
