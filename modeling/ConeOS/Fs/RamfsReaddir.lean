import ConeOS.Fs.Ramfs

namespace ConeOS.Fs

open ConeOS.Library List
open ConeOS.Vfs (Path ramfsNameSize slash)

section Model

/-- A loop of `ramfs_readdir`: the entries that are not skipped are counted on from `visible`
until the one at `index` is met. -/
def visitEntries {α : Type} (entry : α → Option FsDirent) (index : Nat) :
    List α → Nat → Option FsDirent × Nat
  | [], visible => (none,visible)
  | a :: rest, visible =>
    match entry a with
    | none => visitEntries entry index rest visible
    | some e =>
      if visible≠index then visitEntries entry index rest (visible+1)
      else (some e,visible+1)

/-- `copy_entry_name`, into an array of `FS_DIRENT_NAME_MAX` bytes. -/
def copyEntryName (name : Path) : Path := name.take (direntNameMax-1)

def directoryEntry (path directory : Path) : Option FsDirent :=
  (ramfsDirectChild path directory).map (fun name => ⟨copyEntryName name,0,.directory⟩)

def fileEntry (path : Path) (file : RamfsFile) : Option FsDirent :=
  if file.used then
    (ramfsDirectChild path file.name).map (fun name => ⟨copyEntryName name,file.size,.file⟩)
  else none

/-- `ramfs_readdir` with its counter: the return value and the entry it fills. -/
def ramfsReaddir (path : Path) (index : Nat) (r : Ramfs) : Int × Option FsDirent :=
  if !ramfsIsDirectory path r then (-1,none)
  else
    match visitEntries (directoryEntry path) index r.directories 0 with
    | (some e,_) => (1,some e)
    | (none,visible) =>
      match visitEntries (fileEntry path) index
          ((List.finRange ramfsMaxFiles).map r.files) visible with
      | (some e,_) => (1,some e)
      | (none,_) => (0,none)

/-- The entries of a directory in the order in which they are counted. -/
def directoryEntries (path : Path) (r : Ramfs) : List FsDirent :=
  r.directories.filterMap (directoryEntry path) ++
    (List.finRange ramfsMaxFiles).filterMap (fun i => fileEntry path (r.files i))

end Model

section Loops

variable {α : Type} {entry : α → Option FsDirent} {index : Nat}

/-- The loop delivers the entry at the index among those not skipped, or counts them all. -/
theorem visitEntries_eq {l : List α} {visible : Nat} (h : visible ≤ index) :
    (visitEntries entry index l visible).1=(l.filterMap entry)[index-visible]? ∧
      ((visitEntries entry index l visible).1=none →
        (visitEntries entry index l visible).2=visible+(l.filterMap entry).length) := by
  induction l generalizing visible with
  | nil => simp [visitEntries]
  | cons a l ih =>
    rw [visitEntries]
    cases ha : entry a with
    | none =>
      rw [filterMap_cons_none ha]
      exact ih h
    | some e =>
      rw [filterMap_cons_some ha]
      dsimp only
      by_cases hv : visible=index
      · rw [if_neg (not_not.mpr hv),hv,Nat.sub_self]
        exact ⟨rfl,fun hno => nomatch hno⟩
      rw [if_pos hv]
      have hle : visible+1 ≤ index := by omega
      obtain ⟨hfound,hcount⟩ := ih hle
      have hindex : index-visible=index-(visible+1)+1 := by omega
      refine ⟨?_,?_⟩
      · rw [hfound,hindex,List.getElem?_cons_succ]
      · intro hnone
        rw [hcount hnone,length_cons]
        omega

/-- Both loops together walk through one list. -/
theorem ramfsReaddir_eq {path : Path} {r : Ramfs} (h : path ∈ r.directories) (index : Nat) :
    ramfsReaddir path index r =
      match (directoryEntries path r)[index]? with
      | some e => (1,some e)
      | none => (0,none) := by
  have hentries : directoryEntries path r=r.directories.filterMap (directoryEntry path) ++
      ((List.finRange ramfsMaxFiles).map r.files).filterMap (fileEntry path) := by
    rw [directoryEntries,filterMap_map]
    rfl
  have hdir : ramfsIsDirectory path r=true := contains_iff_mem.mpr h
  rw [ramfsReaddir,hdir,hentries]
  simp only [Bool.not_true,Bool.false_eq_true,if_false]
  have hvisit : (visitEntries (directoryEntry path) index r.directories 0).1=_ ∧ _ :=
    visitEntries_eq (Nat.zero_le index)
  obtain ⟨hfirst,hcount⟩ := hvisit
  rw [Nat.sub_zero] at hfirst
  generalize visitEntries (directoryEntry path) index r.directories 0=first at hfirst hcount
  obtain ⟨found,visible⟩ := first
  cases found with
  | some e =>
    rw [List.getElem?_append_left (List.getElem?_eq_some_iff.mp hfirst.symm).1,← hfirst]
  | none =>
    have hpast : (r.directories.filterMap (directoryEntry path)).length ≤ index :=
      List.getElem?_eq_none_iff.mp hfirst.symm
    have hvisible : visible=(r.directories.filterMap (directoryEntry path)).length := by
      simpa using hcount rfl
    have hvisit : (visitEntries (fileEntry path) index
        ((List.finRange ramfsMaxFiles).map r.files) visible).1=_ ∧ _ :=
      visitEntries_eq (hvisible.trans_le hpast)
    obtain ⟨hsecond,-⟩ := hvisit
    rw [List.getElem?_append_right hpast,← hvisible,← hsecond]
    dsimp only
    generalize visitEntries (fileEntry path) index _ visible=second
    obtain ⟨found,count⟩ := second
    cases found <;> rfl

end Loops

section Children

variable {name directory path : Path}

/-- The path of a name directly below a directory. -/
def childPath (directory name : Path) : Path :=
  if directory=rootPath then slash :: name else directory ++ slash :: name

/-- A name between two slashes. -/
structure IsName (name : Path) : Prop where
  ne_nil : name≠[]
  no_slash : slash ∉ name

/-- The path is the directory with one further component. -/
def IsChild (directory path : Path) : Prop := ∃ name, IsName name ∧ path=childPath directory name

theorem named_iff {below : Option Path} :
    (match below with
      | none => none
      | some name => if name=[] ∨ slash ∈ name then none else some name)=some name ↔
      below=some name ∧ IsName name := by
  cases below with
  | none => simp
  | some other =>
    dsimp only
    split_ifs with h
    · constructor
      · intro hno
        cases hno
      intro hyes
      rw [Option.some.inj hyes.1] at h
      rcases h with h | h
      · exact absurd h hyes.2.ne_nil
      · exact absurd h hyes.2.no_slash
    · rw [not_or] at h
      constructor
      · intro hyes
        rw [← Option.some.inj hyes]
        exact ⟨rfl,h.1,h.2⟩
      · exact fun hyes => hyes.1

/-- The text behind the directory and its slash. -/
theorem below_iff {rest : Path} :
    (if directory=rootPath then
        if path.head? = some slash then some path.tail else none
      else if List.isPrefixOf directory path && (path.drop directory.length).head? == some slash
        then some (path.drop (directory.length+1))
      else none)=some rest ↔ path=childPath directory rest := by
  rw [childPath]
  by_cases hroot : directory=rootPath
  · rw [if_pos hroot,if_pos hroot]
    cases path with
    | nil => simp
    | cons c path =>
      by_cases hc : c=slash
      · simp [hc]
      · simp [hc]
  rw [if_neg hroot,if_neg hroot]
  constructor
  · intro h
    split_ifs at h with htest
    rw [Bool.and_eq_true, List.isPrefixOf_iff_prefix,beq_iff_eq] at htest
    obtain ⟨⟨tail,rfl⟩,hslash⟩ := htest
    rw [drop_left] at hslash
    cases tail with
    | nil => cases hslash
    | cons c tail =>
      rw [List.head?_cons,Option.some.injEq] at hslash
      rw [Option.some.injEq,← drop_drop,drop_left] at h
      rw [hslash,← h]
      rfl
  · rintro rfl
    have hpre : List.isPrefixOf directory (directory ++ slash :: rest)=true :=
      isPrefixOf_iff_prefix.mpr (prefix_append _ _)
    rw [hpre,drop_left,← drop_drop,drop_left]
    rfl

theorem ramfsDirectChild_iff :
    ramfsDirectChild directory path=some name ↔
      IsName name ∧ path=childPath directory name := by
  rw [ramfsDirectChild]
  refine named_iff.trans ?_
  rw [below_iff,and_comm]

theorem ramfsDirectChild_isSome :
    (ramfsDirectChild directory path).isSome=true ↔ IsChild directory path := by
  rw [Option.isSome_iff_exists,IsChild]
  exact exists_congr fun _ => ramfsDirectChild_iff

instance (directory path : Path) : Decidable (IsChild directory path) :=
  decidable_of_iff _ ramfsDirectChild_isSome

end Children

section Enumeration

variable {e : FsDirent}

/-- The tables tell their names apart, and the names fit their arrays. -/
structure NamesApart (r : Ramfs) : Prop where
  files : ∀ i j, (r.files i).used=true → (r.files j).used=true →
    (r.files i).name=(r.files j).name → i=j
  directories : r.directories.Nodup
  fileShort : ∀ i, (r.files i).name.length<ramfsNameSize
  directoryShort : ∀ d ∈ r.directories, d.length<ramfsNameSize

/-- The entry describes a child of the directory. -/
inductive ChildEntry (path : Path) (r : Ramfs) : FsDirent → Prop
  | directory {name : Path} : IsName name → childPath path name ∈ r.directories →
      ChildEntry path r ⟨name,0,.directory⟩
  | file {name : Path} {i : Fin ramfsMaxFiles} : IsName name → (r.files i).used=true →
      (r.files i).name=childPath path name → ChildEntry path r ⟨name,(r.files i).size,.file⟩

variable {path : Path} {r : Ramfs}

theorem length_le_childPath (directory name : Path) :
    name.length≤(childPath directory name).length := by
  rw [childPath]
  split_ifs
  · exact Nat.le_succ _
  · rw [length_append,length_cons]
    omega

theorem copyEntryName_child {name : Path} (h : (childPath path name).length<ramfsNameSize) :
    copyEntryName name=name := by
  apply take_of_length_le
  have hle := length_le_childPath path name
  have hsize : ramfsNameSize=256 := rfl
  rw [direntNameMax]
  omega

theorem direntOf_some {stored : Path} (hstored : stored.length<ramfsNameSize) {size : Nat}
    {type : DirentType} :
    (ramfsDirectChild path stored).map (fun name => ⟨copyEntryName name,size,type⟩)=some e ↔
      ∃ name, IsName name ∧ stored=childPath path name ∧ e=⟨name,size,type⟩ := by
  rw [Option.map_eq_some_iff]
  refine exists_congr fun name => ?_
  rw [ramfsDirectChild_iff]
  constructor
  · intro h
    obtain ⟨⟨hname,hpath⟩,he⟩ := h
    rw [copyEntryName_child (hpath ▸ hstored)] at he
    exact ⟨hname,hpath,he.symm⟩
  intro h
  obtain ⟨hname,hpath,he⟩ := h
  rw [copyEntryName_child (hpath ▸ hstored)]
  exact ⟨⟨hname,hpath⟩,he.symm⟩

theorem fileEntry_some {f : RamfsFile} (hf : f.name.length<ramfsNameSize) :
    fileEntry path f=some e ↔ f.used=true ∧
      ∃ name, IsName name ∧ f.name=childPath path name ∧ e=⟨name,f.size,.file⟩ := by
  rw [fileEntry]
  by_cases hused : f.used=true
  · rw [if_pos hused,direntOf_some hf]
    simp only [hused,true_and]
  · rw [if_neg hused]
    simp [hused]

theorem mem_directoryEntries (h : NamesApart r) :
    e ∈ directoryEntries path r ↔ ChildEntry path r e := by
  rw [directoryEntries,mem_append,mem_filterMap,mem_filterMap]
  constructor
  · intro he
    rcases he with ⟨d,hd,hentry⟩ | ⟨i,-,hentry⟩
    · obtain ⟨name,hname,rfl,rfl⟩ := (direntOf_some (h.directoryShort d hd)).mp hentry
      exact .directory hname hd
    · obtain ⟨hused,name,hname,hpath,rfl⟩ := (fileEntry_some (h.fileShort i)).mp hentry
      exact .file hname hused hpath
  intro he
  cases he with
  | directory hname hd =>
    exact .inl ⟨_,hd,(direntOf_some (h.directoryShort _ hd)).mpr ⟨_,hname,rfl,rfl⟩⟩
  | @file name i hname hused hpath =>
    exact .inr ⟨i,mem_finRange i,
      (fileEntry_some (h.fileShort i)).mpr ⟨hused,name,hname,hpath,rfl⟩⟩

/-- Two children of one table with the same entry have the same path. -/
theorem nodup_directoryEntries (h : NamesApart r) : (directoryEntries path r).Nodup := by
  rw [directoryEntries,nodup_append]
  refine ⟨?_,?_,?_⟩
  · rw [List.Nodup,pairwise_filterMap]
    refine h.directories.imp_of_mem ?_
    intro d d' hd hd' hne e he e' he' hsame
    obtain ⟨name,-,rfl,rfl⟩ := (direntOf_some (h.directoryShort d hd)).mp he
    obtain ⟨name',-,rfl,rfl⟩ := (direntOf_some (h.directoryShort d' hd')).mp he'
    exact hne (congrArg (childPath path) (congrArg FsDirent.name hsame))
  · rw [List.Nodup,pairwise_filterMap]
    refine (nodup_finRange ramfsMaxFiles).imp_of_mem ?_
    intro i j _ _ hne e he e' he' hsame
    obtain ⟨hused,name,-,hpath,rfl⟩ := (fileEntry_some (h.fileShort i)).mp he
    obtain ⟨hused',name',-,hpath',rfl⟩ := (fileEntry_some (h.fileShort j)).mp he'
    have hname : name=name' := congrArg FsDirent.name hsame
    exact hne (h.files i j hused hused' (by rw [hpath,hpath',hname]))
  · intro e he e' he' hsame
    obtain ⟨d,hd,hentry⟩ := mem_filterMap.mp he
    obtain ⟨i,-,hentry'⟩ := mem_filterMap.mp he'
    obtain ⟨name,-,-,rfl⟩ := (direntOf_some (h.directoryShort d hd)).mp hentry
    obtain ⟨-,name',-,-,rfl⟩ := (fileEntry_some (h.fileShort i)).mp hentry'
    cases congrArg FsDirent.type hsame

theorem length_directoryEntries (path : Path) (r : Ramfs) :
    (directoryEntries path r).length=r.directories.countP (fun d => decide (IsChild path d)) +
      (List.finRange ramfsMaxFiles).countP
        (fun i => (r.files i).used && decide (IsChild path (r.files i).name)) := by
  rw [directoryEntries,length_append,length_filterMap_eq_countP,length_filterMap_eq_countP]
  have hchild : ∀ stored, (ramfsDirectChild path stored).isSome=decide (IsChild path stored) := by
    intro stored
    rw [Bool.eq_iff_iff,ramfsDirectChild_isSome,decide_eq_true_iff]
  congr 2
  · funext d
    rw [directoryEntry,Option.isSome_map,hchild]
  · funext i
    rw [fileEntry]
    cases (r.files i).used with
    | false => rfl
    | true => rw [if_pos rfl,Option.isSome_map,hchild,Bool.true_and]

/-- The calls with the indices from 0 on deliver every child of the directory once, and then
nothing. -/
theorem ramfs_readdir_enumerates (r : Ramfs) (h : NamesApart r) (path : Path)
    (hpath : path ∈ r.directories) :
    ∃ entries : List FsDirent, entries.Nodup ∧ (∀ e, e ∈ entries ↔ ChildEntry path r e) ∧
      entries.length=r.directories.countP (fun d => decide (IsChild path d)) +
        (List.finRange ramfsMaxFiles).countP
          (fun i => (r.files i).used && decide (IsChild path (r.files i).name)) ∧
      (∀ index (hindex : index<entries.length),
        ramfsReaddir path index r=(1, some (entries.get ⟨index,hindex⟩))) ∧
      ∀ index, entries.length ≤ index → ramfsReaddir path index r=(0,none) := by
  refine ⟨directoryEntries path r,nodup_directoryEntries h,fun e => mem_directoryEntries h,
    length_directoryEntries path r,?_,?_⟩
  · intro index hindex
    rw [ramfsReaddir_eq hpath,List.getElem?_eq_getElem hindex]
    rfl
  · intro index hindex
    rw [ramfsReaddir_eq hpath,List.getElem?_eq_none hindex]

/-- The root of the booted system lists three directories and one file. -/
theorem booted_root_enumerated :
    ∃ entries : List FsDirent, entries.Nodup ∧ entries.length=4 ∧
      ∀ index, 4 ≤ index → ramfsReaddir rootPath index (ramfsInit none)=(0,none) := by
  have happart : NamesApart (ramfsInit none) :=
    ⟨by decide +kernel,by decide +kernel,by decide +kernel,by decide +kernel⟩
  obtain ⟨entries,hnodup,-,hlength,-,hend⟩ :=
    ramfs_readdir_enumerates (ramfsInit none) happart rootPath (by decide +kernel)
  have hfour : entries.length=4 := hlength.trans (by decide +kernel)
  exact ⟨entries,hnodup,hfour,fun index hindex => hend index (hfour.trans_le hindex)⟩

end Enumeration

end ConeOS.Fs
