import ConeOS.Fs.Ramfs

namespace ConeOS.Fs

open ConeOS.Library Function List
open ConeOS.Vfs (Path ramfsNameSize ramfsDataSize slash)

/-- What every state of the file table keeps, whatever `kmalloc` answers. -/
structure RamfsInv (r : Ramfs) : Prop where
  distinct : ∀ i j, (r.files i).used=true → (r.files j).used=true →
    (r.files i).name=(r.files j).name → i=j
  released : ∀ i, (r.files i).used=false → (r.files i).data=none
  empty : ∀ i, (r.files i).data=none → (r.files i).size=0
  bounded : ∀ i, (r.files i).size≤ramfsDataSize

/-- Every file in use has its area. -/
def Complete (r : Ramfs) : Prop := ∀ i, (r.files i).used=true → (r.files i).data.isSome=true

/-- What the table stands for. -/
abbrev FileMap := Path → Option (List UInt8)

def Ramfs.map (r : Ramfs) : FileMap := fun name =>
  (findFile name r).map (fun i => (r.files i).contents)

section Lookup

variable {r : Ramfs} {name : Path} {i : Fin ramfsMaxFiles}

theorem findFile_used (h : findFile name r=some i) :
    (r.files i).used=true ∧ (r.files i).name=name := by
  simpa using firstIndex_some h

theorem findFile_none (h : findFile name r=none) (j : Fin ramfsMaxFiles)
    (hj : (r.files j).used=true) : (r.files j).name≠name := by
  have hfirst := firstIndex_none h j
  simp only [hj,Bool.true_and,beq_eq_false_iff_ne] at hfirst
  exact hfirst

theorem RamfsInv.findFile_iff (inv : RamfsInv r) :
    findFile name r=some i ↔ (r.files i).used=true ∧ (r.files i).name=name := by
  constructor
  · exact findFile_used
  rintro ⟨hu,hn⟩
  cases hf : findFile name r with
  | none => exact absurd hn (findFile_none hf i hu)
  | some j =>
    obtain ⟨hju,hjn⟩ := findFile_used hf
    rw [inv.distinct j i hju hu (hjn.trans hn.symm)]

theorem RamfsInv.map_iff (inv : RamfsInv r) {bytes : List UInt8} :
    r.map name=some bytes ↔
      ∃ i, (r.files i).used=true ∧ (r.files i).name=name ∧ (r.files i).contents=bytes := by
  rw [Ramfs.map,Option.map_eq_some_iff]
  constructor
  · rintro ⟨i,hi,hb⟩
    exact ⟨i,(findFile_used hi).1,(findFile_used hi).2,hb⟩
  · rintro ⟨i,hu,hn,hb⟩
    exact ⟨i,inv.findFile_iff.mpr ⟨hu,hn⟩,hb⟩

theorem contents_length (inv : RamfsInv r) (i : Fin ramfsMaxFiles) :
    (r.files i).contents.length=(r.files i).size := by
  rw [RamfsFile.contents]
  split
  · next hd => rw [length_nil,inv.empty i hd]
  · rw [length_map,length_range]

end Lookup

section SetFile

variable {r : Ramfs} {i : Fin ramfsMaxFiles} {f : RamfsFile}

theorem setFile_files_self : (setFile i f r).files i=f := update_self ..

theorem setFile_files_of_ne {j : Fin ramfsMaxFiles} (h : j≠i) :
    (setFile i f r).files j=r.files j := update_of_ne h ..

/-- A slot may be written if its new name is its own and its bookkeeping is right. -/
theorem RamfsInv.setFile (inv : RamfsInv r)
    (hother : f.used=true → ∀ j, j≠i → (r.files j).used=true → (r.files j).name≠f.name)
    (hreleased : f.used=false → f.data=none) (hempty : f.data=none → f.size=0)
    (hbounded : f.size≤ramfsDataSize) : RamfsInv (setFile i f r) where
  distinct j k := by
    by_cases hj : j=i
    · by_cases hk : k=i
      · intro _ _ _
        rw [hj,hk]
      · rw [hj,setFile_files_self,setFile_files_of_ne hk]
        intro hu hku hn
        exact absurd hn.symm (hother hu k hk hku)
    by_cases hk : k=i
    · rw [hk,setFile_files_self,setFile_files_of_ne hj]
      intro hju hu hn
      exact absurd hn (hother hu j hj hju)
    · rw [setFile_files_of_ne hj,setFile_files_of_ne hk]
      exact inv.distinct j k
  released j := by
    by_cases hj : j=i
    · rw [hj,setFile_files_self]
      exact hreleased
    · rw [setFile_files_of_ne hj]
      exact inv.released j
  empty j := by
    by_cases hj : j=i
    · rw [hj,setFile_files_self]
      exact hempty
    · rw [setFile_files_of_ne hj]
      exact inv.empty j
  bounded j := by
    by_cases hj : j=i
    · rw [hj,setFile_files_self]
      exact hbounded
    · rw [setFile_files_of_ne hj]
      exact inv.bounded j

/-- A slot that takes a name no other slot has, or keeps its own. -/
theorem map_setFile_used (inv : RamfsInv r) (inv' : RamfsInv (setFile i f r)) (hu : f.used=true)
    (hi : (r.files i).used=true → (r.files i).name=f.name) :
    (setFile i f r).map=update r.map f.name (some f.contents) := by
  funext n
  apply Option.ext
  intro bytes
  rw [inv'.map_iff]
  by_cases hn : n=f.name
  · subst hn
    rw [update_self,Option.some.injEq]
    constructor
    · rintro ⟨j,hju,hjn,hb⟩
      have hji : j=i := inv'.distinct j i hju (by rw [setFile_files_self,hu])
        (by rw [hjn,setFile_files_self])
      rw [hji,setFile_files_self] at hb
      exact hb
    · intro hb
      exact ⟨i,by rw [setFile_files_self,hu],by rw [setFile_files_self],
        by rw [setFile_files_self,hb]⟩
  rw [update_of_ne hn,inv.map_iff]
  refine exists_congr fun j => ?_
  by_cases hj : j=i
  · subst hj
    rw [setFile_files_self]
    constructor
    · rintro ⟨-,hjn,-⟩
      exact absurd hjn.symm hn
    · rintro ⟨hju,hjn,-⟩
      exact absurd (hjn.symm.trans (hi hju)) hn
  · rw [setFile_files_of_ne hj]

/-- A slot that is given up. -/
theorem map_setFile_unused (inv : RamfsInv r) (inv' : RamfsInv (setFile i f r))
    (hu : f.used=false) (hi : (r.files i).used=true) :
    (setFile i f r).map=update r.map (r.files i).name none := by
  funext n
  apply Option.ext
  intro bytes
  rw [inv'.map_iff]
  by_cases hn : n=(r.files i).name
  · subst hn
    rw [update_self]
    constructor
    · rintro ⟨j,hju,hjn,-⟩
      by_cases hj : j=i
      · rw [hj,setFile_files_self,hu] at hju
        cases hju
      · rw [setFile_files_of_ne hj] at hju hjn
        exact absurd (inv.distinct j i hju hi hjn) hj
    · intro h
      cases h
  rw [update_of_ne hn,inv.map_iff]
  refine exists_congr fun j => ?_
  by_cases hj : j=i
  · subst hj
    rw [setFile_files_self,hu]
    constructor
    · rintro ⟨h,-⟩
      cases h
    · rintro ⟨-,hjn,-⟩
      exact absurd hjn.symm hn
  · rw [setFile_files_of_ne hj]

end SetFile

section Write

variable {r : Ramfs} {alloc : Kmalloc} {name : Path} {bytes : List UInt8}

theorem overwrite_contents (bytes : List UInt8) (data : Nat → UInt8) :
    (List.range bytes.length).map (overwrite bytes data)=bytes := by
  apply ext_getElem
  · rw [length_map,length_range]
  · intro i _ hi
    rw [getElem_map,getElem_range,overwrite,if_pos hi,getD_eq_getElem?_getD,
      List.getElem?_eq_getElem hi,Option.getD_some]

/-- The file after a write. -/
def RamfsFile.written (f : RamfsFile) (bytes : List UInt8) (data : Nat → UInt8) : RamfsFile :=
  { f with data := some (overwrite bytes data), size := bytes.length }

theorem written_contents (f : RamfsFile) (bytes : List UInt8) (data : Nat → UInt8) :
    (f.written bytes data).contents=bytes := overwrite_contents bytes data

/-- A slot taken for a new name. -/
def RamfsFile.claimed (f : RamfsFile) (name : Path) (alloc : Kmalloc) : RamfsFile :=
  ⟨true,name.take (ramfsNameSize-1),alloc,f.size⟩

/-- Everything a write can do. -/
inductive WriteEffect (alloc : Kmalloc) (name : Path) (bytes : List UInt8) (r : Ramfs) :
    Bool × Ramfs → Prop
  | tooLong (hlen : ramfsDataSize<bytes.length) : WriteEffect alloc name bytes r (false,r)
  | full (hlen : bytes.length≤ramfsDataSize) (hfind : findFile name r=none)
      (hfull : ∀ i, (r.files i).used=true) : WriteEffect alloc name bytes r (false,r)
  | areaMissing {i : Fin ramfsMaxFiles} (hlen : bytes.length≤ramfsDataSize)
      (hfind : findFile name r=some i) (hdata : (r.files i).data=none) :
      WriteEffect alloc name bytes r (false,r)
  | replaced {i : Fin ramfsMaxFiles} {data : Nat → UInt8} (hlen : bytes.length≤ramfsDataSize)
      (hfind : findFile name r=some i) (hdata : (r.files i).data=some data) :
      WriteEffect alloc name bytes r (true, setFile i ((r.files i).written bytes data) r)
  | abandoned {i : Fin ramfsMaxFiles} (hlen : bytes.length≤ramfsDataSize)
      (hfind : findFile name r=none) (hfree : (r.files i).used=false) (halloc : alloc=none) :
      WriteEffect alloc name bytes r (false, setFile i ((r.files i).claimed name none) r)
  | created {i : Fin ramfsMaxFiles} {data : Nat → UInt8} (hlen : bytes.length≤ramfsDataSize)
      (hfind : findFile name r=none) (hfree : (r.files i).used=false)
      (halloc : alloc=some data) :
      WriteEffect alloc name bytes r
        (true, setFile i (((r.files i).claimed name alloc).written bytes data) r)

theorem setFile_twice (i : Fin ramfsMaxFiles) (f g : RamfsFile) (r : Ramfs) :
    setFile i g (setFile i f r)=setFile i g r := by
  rw [setFile,setFile,setFile]
  simp only [update_idem]

theorem ramfsWrite_effect (alloc : Kmalloc) (name : Path) (bytes : List UInt8) (r : Ramfs) :
    WriteEffect alloc name bytes r (ramfsWrite alloc name bytes r) := by
  rw [ramfsWrite]
  by_cases hlen : bytes.length > ramfsDataSize
  · rw [if_pos hlen]
    exact .tooLong hlen
  rw [if_neg hlen]
  replace hlen := Nat.le_of_not_lt hlen
  cases hfind : findFile name r with
  | some i =>
    have hclaim : claimFile alloc name r=(some i,r) := by rw [claimFile,hfind]
    rw [hclaim]
    dsimp only
    cases hdata : (r.files i).data with
    | none => exact .areaMissing hlen hfind hdata
    | some data => exact .replaced hlen hfind hdata
  | none =>
    cases hfree : firstIndex (fun i => !(r.files i).used) with
    | none =>
      have hclaim : claimFile alloc name r=(none,r) := by rw [claimFile,hfind,hfree]
      rw [hclaim]
      exact .full hlen hfind (fun i => by simpa using firstIndex_none hfree i)
    | some i =>
      have hunused : (r.files i).used=false := by simpa using firstIndex_some hfree
      have hclaim : claimFile alloc name r =
          (some i, setFile i ((r.files i).claimed name alloc) r) := by
        rw [claimFile,hfind,hfree]
        rfl
      have hslot : (setFile i ((r.files i).claimed name alloc) r).files i =
          (r.files i).claimed name alloc := setFile_files_self
      rw [hclaim]
      dsimp only
      rw [hslot]
      cases halloc : alloc with
      | none => exact .abandoned hlen hfind hunused rfl
      | some data =>
        have heffect := WriteEffect.created hlen hfind hunused halloc
        rw [halloc] at heffect
        dsimp only [RamfsFile.claimed]
        rw [setFile_twice]
        exact heffect

theorem take_name (h : name.length<ramfsNameSize) : name.take (ramfsNameSize-1)=name :=
  take_of_length_le (by omega)

theorem RamfsInv.write (inv : RamfsInv r) (hname : name.length<ramfsNameSize) :
    RamfsInv (ramfsWrite alloc name bytes r).2 := by
  have heffect := ramfsWrite_effect alloc name bytes r
  generalize ramfsWrite alloc name bytes r=w at heffect
  cases heffect with
  | tooLong | full | areaMissing => exact inv
  | @replaced i data hlen hfind hdata =>
    refine inv.setFile ?_ ?_ ?_ hlen
    · intro _ j hj hju hjn
      exact hj (inv.distinct j i hju (findFile_used hfind).1 hjn)
    · intro hu
      rw [RamfsFile.written,(findFile_used hfind).1] at hu
      cases hu
    · intro hd
      cases hd
  | @abandoned i hlen hfind hfree halloc =>
    refine inv.setFile ?_ ?_ ?_ (inv.bounded i)
    · intro _ j hj hju
      rw [RamfsFile.claimed,take_name hname]
      exact findFile_none hfind j hju
    · intro hu
      cases hu
    · intro _
      exact inv.empty i (inv.released i hfree)
  | @created i data hlen hfind hfree halloc =>
    refine inv.setFile ?_ ?_ ?_ hlen
    · intro _ j hj hju
      rw [RamfsFile.written,RamfsFile.claimed,take_name hname]
      exact findFile_none hfind j hju
    · intro hu
      cases hu
    · intro hd
      cases hd

theorem RamfsInv.unlink (inv : RamfsInv r) (path : Path) : RamfsInv (ramfsUnlink path r).2 := by
  rw [ramfsUnlink]
  split
  · exact inv
  · exact inv.setFile (fun hu => by cases hu) (fun _ => rfl) (fun _ => rfl) (Nat.zero_le _)

/-- The area is granted when the write takes a new slot. -/
def Granted (alloc : Kmalloc) (name : Path) (bytes : List UInt8) (r : Ramfs) : Prop :=
  bytes.length≤ramfsDataSize → findFile name r=none → (∃ i, (r.files i).used=false) →
    alloc.isSome=true

theorem Complete.write (h : Complete r) (hgranted : Granted alloc name bytes r) :
    Complete (ramfsWrite alloc name bytes r).2 := by
  have heffect := ramfsWrite_effect alloc name bytes r
  generalize ramfsWrite alloc name bytes r=w at heffect
  have hset : ∀ i f, f.data.isSome=true → Complete (setFile i f r) := by
    intro i f hf j
    by_cases hj : j=i
    · intro _
      rw [hj,setFile_files_self,hf]
    · rw [setFile_files_of_ne hj]
      exact h j
  cases heffect with
  | tooLong | full | areaMissing => exact h
  | replaced => exact hset _ _ rfl
  | abandoned hlen hfind hfree halloc =>
    have hsome := hgranted hlen hfind ⟨_,hfree⟩
    rw [halloc] at hsome
    cases hsome
  | created => exact hset _ _ rfl

theorem Complete.unlink (h : Complete r) (path : Path) : Complete (ramfsUnlink path r).2 := by
  rw [ramfsUnlink]
  split
  · exact h
  · next i _ =>
    intro j
    by_cases hj : j=i
    · rw [hj,setFile_files_self]
      intro hu
      cases hu
    · rw [setFile_files_of_ne hj]
      exact h j

theorem ramfsWrite_refused (hgranted : Granted alloc name bytes r)
    (h : (ramfsWrite alloc name bytes r).1=false) : (ramfsWrite alloc name bytes r).2=r := by
  have heffect := ramfsWrite_effect alloc name bytes r
  generalize ramfsWrite alloc name bytes r=w at heffect h
  cases heffect with
  | tooLong | full | areaMissing => rfl
  | abandoned hlen hfind hfree halloc =>
    have hsome := hgranted hlen hfind ⟨_,hfree⟩
    rw [halloc] at hsome
    cases hsome
  | replaced | created => cases h

end Write

section Listing

variable {r : Ramfs}

/-- The entries of a map, each name once, with the sizes of the contents. -/
structure Lists (m : FileMap) (entries : List (Path × Nat)) : Prop where
  nodup : (entries.map Prod.fst).Nodup
  mem_iff : ∀ name size, (name,size) ∈ entries ↔ ∃ bytes, m name=some bytes ∧ bytes.length=size

/-- The slots in use. -/
def visible (r : Ramfs) : List (Fin ramfsMaxFiles) :=
  (List.finRange ramfsMaxFiles).filter (fun i => (r.files i).used)

def entries (r : Ramfs) : List (Path × Nat) :=
  (visible r).map (fun i => ((r.files i).name, (r.files i).size))

theorem entries_lists (inv : RamfsInv r) : Lists r.map (entries r) where
  nodup := by
    rw [entries,map_map]
    refine List.Nodup.map_on ?_ ((nodup_finRange _).filter _)
    intro i hi j hj hn
    have hiu : (r.files i).used=true := (mem_filter.mp hi).2
    have hju : (r.files j).used=true := (mem_filter.mp hj).2
    exact inv.distinct i j hiu hju hn
  mem_iff name size := by
    rw [entries,mem_map]
    constructor
    · rintro ⟨i,hi,heq⟩
      obtain ⟨hn,hs⟩ := Prod.mk.inj heq
      refine ⟨_,inv.map_iff.mpr ⟨i,(mem_filter.mp hi).2,hn,rfl⟩,?_⟩
      rw [contents_length inv,hs]
    rintro ⟨bytes,hb,hlen⟩
    obtain ⟨i,hu,hn,hc⟩ := inv.map_iff.mp hb
    refine ⟨i,mem_filter.mpr ⟨mem_finRange i,hu⟩,?_⟩
    rw [hn,← contents_length inv i,hc,hlen]

theorem entries_length_full (h : ∀ i, (r.files i).used=true) :
    (entries r).length=ramfsMaxFiles := by
  rw [entries,length_map,visible,filter_eq_self.mpr (fun i _ => h i),length_finRange]

theorem entries_length_lt {i : Fin ramfsMaxFiles} (h : (r.files i).used=false) :
    (entries r).length<ramfsMaxFiles := by
  rw [entries,length_map,visible]
  conv_rhs => rw [← length_finRange (n := ramfsMaxFiles)]
  refine length_filter_lt_length_iff_exists.mpr ⟨i,mem_finRange i,?_⟩
  rw [h]
  simp

end Listing

section Runs

variable {r : Ramfs} {c : RamfsCall} {cs : List RamfsCall}

inductive RamfsCall
  | write (alloc : Kmalloc) (name : Path) (bytes : List UInt8)
  | read (name : Path) (capacity : Nat)
  | stat (name : Path)
  | unlink (name : Path)
  | list (capacity : Nat)

inductive RamfsResult
  | status (ok : Bool)
  | bytes (contents : Option (List UInt8))
  | size (size : Option Nat)
  | listing (entries : List (Path × Nat)) (count : Nat)
  deriving DecidableEq

def RamfsCall.run (r : Ramfs) : RamfsCall → RamfsResult × Ramfs
  | .write alloc name bytes =>
    (.status (ramfsWrite alloc name bytes r).1, (ramfsWrite alloc name bytes r).2)
  | .read name capacity => (.bytes (ramfsRead name capacity r), r)
  | .stat name => (.size (ramfsStat name r), r)
  | .unlink name => (.status (ramfsUnlink name r).1, (ramfsUnlink name r).2)
  | .list capacity => (.listing (ramfsList capacity r).1 (ramfsList capacity r).2, r)

def RamfsCall.nameShort : RamfsCall → Prop
  | .write _ name _ => name.length<ramfsNameSize
  | .read name _ => name.length<ramfsNameSize
  | .stat name => name.length<ramfsNameSize
  | .unlink name => name.length<ramfsNameSize
  | .list _ => True

/-- The condition on a call in the state it is made in. -/
def RamfsCall.granted (r : Ramfs) : RamfsCall → Prop
  | .write alloc name bytes => Granted alloc name bytes r
  | _ => True

/-- Insert, lookup and delete on a map that has room for a fixed number of names. A listing is
in any order. -/
inductive MapStep : FileMap → RamfsCall → RamfsResult → FileMap → Prop
  | accepted {m : FileMap} {alloc : Kmalloc} {name : Path} {bytes : List UInt8}
      (hlen : bytes.length≤ramfsDataSize)
      (hroom : (m name).isSome=true ∨ ∃ l, Lists m l ∧ l.length<ramfsMaxFiles) :
      MapStep m (.write alloc name bytes) (.status true) (update m name (some bytes))
  | refused {m : FileMap} {alloc : Kmalloc} {name : Path} {bytes : List UInt8}
      (h : ramfsDataSize<bytes.length ∨
        m name=none ∧ ∃ l, Lists m l ∧ l.length=ramfsMaxFiles) :
      MapStep m (.write alloc name bytes) (.status false) m
  | read {m : FileMap} {name : Path} {capacity : Nat} :
      MapStep m (.read name capacity) (.bytes ((m name).map (List.take capacity))) m
  | stat {m : FileMap} {name : Path} :
      MapStep m (.stat name) (.size ((m name).map List.length)) m
  | unlink {m : FileMap} {name : Path} :
      MapStep m (.unlink name) (.status (m name).isSome) (update m name none)
  | list {m : FileMap} {capacity : Nat} {l : List (Path × Nat)} (h : Lists m l) :
      MapStep m (.list capacity) (.listing (l.take capacity) l.length) m

theorem RamfsInv.run (inv : RamfsInv r) (hname : c.nameShort) :
    RamfsInv (c.run r).2 := by
  cases c with
  | write => exact inv.write hname
  | unlink => exact inv.unlink _
  | read | stat | list => exact inv

theorem Complete.run (h : Complete r) (hgranted : c.granted r) :
    Complete (c.run r).2 := by
  cases c with
  | write => exact h.write hgranted
  | unlink => exact h.unlink _
  | read | stat | list => exact h

/-- One call is one step of the map. -/
theorem mapStep_run (inv : RamfsInv r) (hcomplete : Complete r)
    (hname : c.nameShort) (hgranted : c.granted r) :
    MapStep r.map c (c.run r).1 (c.run r).2.map := by
  cases c with
  | write alloc name bytes =>
    have inv' : RamfsInv (RamfsCall.run r (.write alloc name bytes)).2 := inv.run hname
    rw [RamfsCall.run] at inv' ⊢
    have heffect := ramfsWrite_effect alloc name bytes r
    generalize ramfsWrite alloc name bytes r=w at heffect inv'
    cases heffect with
    | tooLong hlen => exact .refused (.inl hlen)
    | full hlen hfind hfull =>
      refine .refused (.inr ⟨?_,entries r,entries_lists inv,entries_length_full hfull⟩)
      rw [Ramfs.map,hfind]
      rfl
    | areaMissing hlen hfind hdata =>
      have harea := hcomplete _ (findFile_used hfind).1
      rw [hdata] at harea
      cases harea
    | @replaced i data hlen hfind hdata =>
      have hmap := map_setFile_used inv inv' (findFile_used hfind).1 (fun _ => rfl)
      rw [written_contents] at hmap
      have hname' : ((r.files i).written bytes data).name=name := (findFile_used hfind).2
      rw [hname'] at hmap
      dsimp only
      rw [hmap]
      refine .accepted hlen (.inl ?_)
      rw [Ramfs.map,hfind]
      rfl
    | abandoned hlen hfind hfree halloc =>
      have hsome := hgranted hlen hfind ⟨_,hfree⟩
      rw [halloc] at hsome
      cases hsome
    | @created i data hlen hfind hfree halloc =>
      have hmap := map_setFile_used inv inv' rfl (fun hu => by rw [hfree] at hu; cases hu)
      rw [written_contents] at hmap
      have hname' : (((r.files i).claimed name alloc).written bytes data).name=name :=
        take_name hname
      rw [hname'] at hmap
      dsimp only
      rw [hmap]
      exact .accepted hlen (.inr ⟨entries r,entries_lists inv,entries_length_lt hfree⟩)
  | read name capacity =>
    have hread : ramfsRead name capacity r=(r.map name).map (List.take capacity) := by
      rw [ramfsRead,Ramfs.map,Option.map_map]
      rfl
    rw [RamfsCall.run,hread]
    exact .read
  | stat name =>
    have hstat : ramfsStat name r=(r.map name).map List.length := by
      rw [ramfsStat,Ramfs.map,Option.map_map]
      congr 1
      funext i
      exact (contents_length inv i).symm
    rw [RamfsCall.run,hstat]
    exact .stat
  | unlink name =>
    have inv' : RamfsInv (RamfsCall.run r (.unlink name)).2 := inv.run hname
    rw [RamfsCall.run] at inv' ⊢
    cases hfind : findFile name r with
    | none =>
      have hm : r.map name=none := by
        rw [Ramfs.map,hfind]
        rfl
      have hsame : update r.map name none=r.map := by
        rw [← hm]
        exact update_eq_self name r.map
      have hstep : MapStep r.map (.unlink name) _ _ := .unlink
      rw [hm,hsame] at hstep
      rw [ramfsUnlink,hfind]
      exact hstep
    | some i =>
      have hunlink : ramfsUnlink name r =
          (true, setFile i { r.files i with used := false, data := none, size := 0 } r) := by
        rw [ramfsUnlink,hfind]
      rw [hunlink] at inv' ⊢
      have hmap := map_setFile_unused inv inv' rfl (findFile_used hfind).1
      rw [(findFile_used hfind).2] at hmap
      have hstep : MapStep r.map (.unlink name) _ _ := .unlink
      have hm : (r.map name).isSome=true := by
        rw [Ramfs.map,hfind]
        rfl
      rw [hm,← hmap] at hstep
      exact hstep
  | list capacity =>
    have hlist : ramfsList capacity r=((entries r).take capacity, (entries r).length) := by
      rw [ramfsList,entries,visible,length_map]
    rw [RamfsCall.run,hlist]
    exact .list (entries_lists inv)

def runRamfs : List RamfsCall → Ramfs → List RamfsResult × Ramfs
  | [], r => ([],r)
  | c :: cs, r =>
    let rest := runRamfs cs (c.run r).2
    ((c.run r).1 :: rest.1, rest.2)

/-- Every call of a run gets the area it needs. -/
def grantedAll : List RamfsCall → Ramfs → Prop
  | [], _ => True
  | c :: cs, r => c.granted r ∧ grantedAll cs (c.run r).2

inductive MapRun : FileMap → List RamfsCall → List RamfsResult → FileMap → Prop
  | nil {m : FileMap} : MapRun m [] [] m
  | cons {m m' m'' : FileMap} {c : RamfsCall} {cs : List RamfsCall} {result : RamfsResult}
      {results : List RamfsResult} (step : MapStep m c result m') (rest : MapRun m' cs results m'') :
      MapRun m (c :: cs) (result :: results) m''

theorem RamfsInv.runRamfs (inv : RamfsInv r)
    (hnames : ∀ c ∈ cs, c.nameShort) : RamfsInv (runRamfs cs r).2 := by
  induction cs generalizing r with
  | nil => exact inv
  | cons c cs ih =>
    exact ih (inv.run (hnames c mem_cons_self))
      (fun d hd => hnames d (mem_cons_of_mem c hd))

theorem mapRun_runRamfs (inv : RamfsInv r) (hcomplete : Complete r) (hnames : ∀ c ∈ cs, c.nameShort)
    (hgranted : grantedAll cs r) :
    MapRun r.map cs (runRamfs cs r).1 (runRamfs cs r).2.map ∧ Complete (runRamfs cs r).2 := by
  induction cs generalizing r with
  | nil => exact ⟨.nil,hcomplete⟩
  | cons c cs ih =>
    have hname := hnames c mem_cons_self
    have hstep := mapStep_run inv hcomplete hname hgranted.1
    obtain ⟨hrest,hend⟩ := ih (inv.run hname) (hcomplete.run hgranted.1)
      (fun d hd => hnames d (mem_cons_of_mem c hd)) hgranted.2
    exact ⟨.cons hstep hrest,hend⟩

theorem RamfsInv.mkdir (inv : RamfsInv r) (path : Path) :
    RamfsInv (ramfsMkdir path r).2 := by
  rw [ramfsMkdir]
  split_ifs
  · exact inv
  · exact inv
  · exact inv
  · exact ⟨inv.distinct,inv.released,inv.empty,inv.bounded⟩

theorem ramfsMkdir_files (path : Path) (r : Ramfs) : (ramfsMkdir path r).2.files=r.files := by
  rw [ramfsMkdir]
  split_ifs <;> rfl

theorem ramfsInit_inv (alloc : Kmalloc) : RamfsInv (ramfsInit alloc) := by
  have hblank : RamfsInv ⟨fun _ => ⟨false,[],none,0⟩,[]⟩ :=
    ⟨fun _ _ h => (nomatch h),fun _ _ => rfl,fun _ _ => rfl,fun _ => Nat.zero_le _⟩
  exact ((((hblank.mkdir _).mkdir _).mkdir _).mkdir _).write (by decide +kernel)

theorem ramfsInit_complete (data : Nat → UInt8) : Complete (ramfsInit (some data)) := by
  apply Complete.write
  · intro i hu
    rw [ramfsMkdir_files,ramfsMkdir_files,ramfsMkdir_files,ramfsMkdir_files] at hu
    cases hu
  · intro _ _ _
    rfl

/-- From `ramfs_init` on: the slots in use have distinct names, whatever `kmalloc` answers; and
as long as it grants the area of every new file, the calls are insert, lookup and delete on a
map of bounded contents, and a refused write changes nothing at all. -/
theorem ramfs_refines_map (cs : List RamfsCall) (hnames : ∀ c ∈ cs, c.nameShort) :
    (∀ alloc, RamfsInv (runRamfs cs (ramfsInit alloc)).2) ∧
    ∀ data, grantedAll cs (ramfsInit (some data)) →
      let r := (runRamfs cs (ramfsInit (some data))).2
      MapRun (ramfsInit (some data)).map cs (runRamfs cs (ramfsInit (some data))).1 r.map ∧
      (∀ name bytes, r.map name=some bytes → bytes.length≤ramfsDataSize) ∧
      ∀ alloc name bytes, Granted alloc name bytes r →
        (ramfsWrite alloc name bytes r).1=false → (ramfsWrite alloc name bytes r).2=r := by
  refine ⟨fun alloc => (ramfsInit_inv alloc).runRamfs hnames,?_⟩
  intro data hgranted
  have inv := ramfsInit_inv (some data)
  obtain ⟨hrun,-⟩ := mapRun_runRamfs inv (ramfsInit_complete data) hnames hgranted
  have inv' := inv.runRamfs hnames
  refine ⟨hrun,?_,fun alloc name bytes => ramfsWrite_refused⟩
  intro name bytes hb
  obtain ⟨i,-,-,hc⟩ := inv'.map_iff.mp hb
  rw [← hc,contents_length inv']
  exact inv'.bounded i

def notesPath : Path := "/notes".toUTF8.toList

/-- A file is made, read, replaced and removed. -/
def notesCalls : List RamfsCall :=
  [.write (some fun _ => 0) notesPath [1,2,3],.read notesPath 2,.write none notesPath [4],
    .stat notesPath,.unlink notesPath,.list 8]

theorem notes_run_of_the_map :
    MapRun (ramfsInit (some fun _ => 0)).map notesCalls
      (runRamfs notesCalls (ramfsInit (some fun _ => 0))).1
      (runRamfs notesCalls (ramfsInit (some fun _ => 0))).2.map := by
  have hnames : ∀ c ∈ notesCalls, c.nameShort := by
    have hshort : notesPath.length<ramfsNameSize := by decide +kernel
    intro c hc
    simp only [notesCalls,mem_cons,not_mem_nil,or_false] at hc
    obtain rfl | rfl | rfl | rfl | rfl | rfl := hc <;> first | exact hshort | trivial
  have hfound : (findFile notesPath (RamfsCall.run (RamfsCall.run (ramfsInit (some fun _ => 0))
      (.write (some fun _ => 0) notesPath [1,2,3])).2 (.read notesPath 2)).2).isSome=true := by
    decide +kernel
  refine ((ramfs_refines_map notesCalls hnames).2 _ ⟨fun _ _ _ => rfl,trivial,?_,trivial,
    trivial,trivial,trivial⟩).1
  intro _ hnone
  rw [hnone] at hfound
  cases hfound

/-- When `kmalloc` fails for a new file, the write fails and the name stays: it is seen by stat
and list, and a later write to it fails although memory is there again. -/
theorem failed_write_leaves_its_name :
    (ramfsWrite none notesPath [1] (ramfsInit (some fun _ => 0))).1=false ∧
    ramfsStat notesPath (ramfsInit (some fun _ => 0))=none ∧
    ramfsStat notesPath (ramfsWrite none notesPath [1] (ramfsInit (some fun _ => 0))).2=some 0 ∧
    (ramfsList 64 (ramfsInit (some fun _ => 0))).2=1 ∧
    (ramfsList 64 (ramfsWrite none notesPath [1] (ramfsInit (some fun _ => 0))).2).2=2 ∧
    (ramfsWrite (some fun _ => 0) notesPath [1]
      (ramfsWrite none notesPath [1] (ramfsInit (some fun _ => 0))).2).1=false := by
  decide +kernel

end Runs

end ConeOS.Fs
