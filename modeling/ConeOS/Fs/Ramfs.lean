import ConeOS.Vfs.Path

namespace ConeOS.Fs

open ConeOS.Library
open ConeOS.Vfs (Path ramfsNameSize ramfsDataSize slash)

def ramfsMaxFiles : Nat := 64
def ramfsMaxDirectories : Nat := 16

/-- What `kmalloc` gives: nothing, or an area with whatever it held before. -/
abbrev Kmalloc := Option (Nat → UInt8)

structure RamfsFile where
  used : Bool
  name : Path
  data : Option (Nat → UInt8)
  size : Nat

/-- The static tables of ramfs.c. -/
structure Ramfs where
  files : Fin ramfsMaxFiles → RamfsFile
  directories : List Path

/-- The bytes of a file. -/
def RamfsFile.contents (f : RamfsFile) : List UInt8 :=
  match f.data with
  | none => []
  | some data => (List.range f.size).map data

section Files

def setFile (i : Fin ramfsMaxFiles) (f : RamfsFile) (r : Ramfs) : Ramfs :=
  { r with files := Function.update r.files i f }

def findFile (name : Path) (r : Ramfs) : Option (Fin ramfsMaxFiles) :=
  firstIndex (fun i => (r.files i).used && (r.files i).name == name)

/-- The files in use, with their sizes, and how many there are; at most `capacity` of them are
delivered. -/
def ramfsList (capacity : Nat) (r : Ramfs) : List (Path × Nat) × Nat :=
  let visible := (List.finRange ramfsMaxFiles).filter (fun i => (r.files i).used)
  ((visible.map (fun i => ((r.files i).name, (r.files i).size))).take capacity, visible.length)

def ramfsRead (name : Path) (capacity : Nat) (r : Ramfs) : Option (List UInt8) :=
  (findFile name r).map (fun i => (r.files i).contents.take capacity)

/-- The loop that copies the new contents over the old ones. -/
def overwrite (bytes : List UInt8) (data : Nat → UInt8) : Nat → UInt8 := fun i =>
  if i<bytes.length then bytes.getD i 0 else data i

/-- The slot of a name, a free one being taken for a new name. The area for the contents is
asked for after the slot is taken. -/
def claimFile (alloc : Kmalloc) (name : Path) (r : Ramfs) : Option (Fin ramfsMaxFiles) × Ramfs :=
  match findFile name r with
  | some i => (some i,r)
  | none =>
    match firstIndex (fun i => !(r.files i).used) with
    | none => (none,r)
    | some i =>
      (some i, setFile i ⟨true,name.take (ramfsNameSize-1),alloc,(r.files i).size⟩ r)

def ramfsWrite (alloc : Kmalloc) (name : Path) (bytes : List UInt8) (r : Ramfs) : Bool × Ramfs :=
  if bytes.length > ramfsDataSize then (false,r)
  else
    match claimFile alloc name r with
    | (none,r) => (false,r)
    | (some i,r) =>
      match (r.files i).data with
      | none => (false,r)
      | some data =>
        (true, setFile i
          { r.files i with data := some (overwrite bytes data), size := bytes.length } r)

def ramfsStat (name : Path) (r : Ramfs) : Option Nat :=
  (findFile name r).map (fun i => (r.files i).size)

def ramfsUnlink (path : Path) (r : Ramfs) : Bool × Ramfs :=
  match findFile path r with
  | none => (false,r)
  | some i => (true, setFile i { r.files i with used := false, data := none, size := 0 } r)

def ramfsCreate (alloc : Kmalloc) (path : Path) (r : Ramfs) : Bool × Ramfs :=
  ramfsWrite alloc path [] r

end Files

section Directories

def ramfsIsDirectory (path : Path) (r : Ramfs) : Bool := r.directories.contains path

def ramfsMkdir (path : Path) (r : Ramfs) : Bool × Ramfs :=
  if path=[] ∨ r.directories.length ≥ ramfsMaxDirectories then (false,r)
  else if ramfsIsDirectory path r then (false,r)
  else if path.length ≥ ramfsNameSize then (false,r)
  else (true, { r with directories := r.directories ++ [path] })

def rootPath : Path := [slash]
def binPath : Path := "/bin".toUTF8.toList

/-- The text that the names below a directory begin with. -/
def directoryPrefix (path : Path) : Path :=
  if path.getLast? = some slash then path else path ++ [slash]

def ramfsRmdir (path : Path) (r : Ramfs) : Bool × Ramfs :=
  if path=rootPath ∨ path=binPath then (false,r)
  else if !r.directories.contains path then (false,r)
  else if path.length=0 ∨ path.length ≥ ramfsNameSize-1 then (false,r)
  else if (List.finRange ramfsMaxFiles).any (fun i => (r.files i).used &&
      List.isPrefixOf (directoryPrefix path) (r.files i).name) then (false,r)
  else
    let index := r.directories.idxOf path
    if (r.directories.eraseIdx index).any (fun d => List.isPrefixOf (directoryPrefix path) d) then
      (false,r)
    else (true, { r with directories := r.directories.eraseIdx index })

end Directories

section Readdir

def direntNameMax : Nat := 768

inductive DirentType
  | file
  | directory
  deriving DecidableEq

structure FsDirent where
  name : Path
  size : Nat
  type : DirentType
  deriving DecidableEq

/-- The last name of a path that lies directly below a directory. -/
def ramfsDirectChild (directory path : Path) : Option Path :=
  let below :=
    if directory=rootPath then
      if path.head? = some slash then some path.tail else none
    else if List.isPrefixOf directory path && (path.drop directory.length).head? == some slash then
      some (path.drop (directory.length+1))
    else none
  match below with
  | none => none
  | some name => if name=[] ∨ slash ∈ name then none else some name

end Readdir

/-- `ramfs_init`; `alloc` answers the request for the contents of `/hello.txt`. -/
def ramfsInit (alloc : Kmalloc) : Ramfs :=
  let r : Ramfs := ⟨fun _ => ⟨false,[],none,0⟩,[]⟩
  let r := (ramfsMkdir rootPath r).2
  let r := (ramfsMkdir binPath r).2
  let r := (ramfsMkdir "/dev".toUTF8.toList r).2
  let r := (ramfsMkdir "/disk".toUTF8.toList r).2
  (ramfsWrite alloc "/hello.txt".toUTF8.toList "ConeOS ramfs\n".toUTF8.toList r).2

end ConeOS.Fs
