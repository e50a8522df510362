import ConeOS.Fs.RamfsMap
import ConeOS.Vfs.Lookup
import ConeOS.Vfs.PathNormal

namespace ConeOS.Fs

open ConeOS.Library
open ConeOS.Vfs

/-- The state behind the mount table: the files of ramfs.c and whatever the other file systems
keep. -/
structure RootFs (φ : Type) where
  ramfs : Ramfs
  others : φ

section Operations

variable {φ : Type}

/-- An operation of ramfs.c as one of the whole. -/
def onRamfs (op : Ramfs → Bool × Ramfs) (b : RootFs φ) : Bool × RootFs φ :=
  ((op b.ramfs).1, { b with ramfs := (op b.ramfs).2 })

/-- `ramfs_ops`; `alloc` is what `kmalloc` answers during the call. -/
def ramfsOps (alloc : Kmalloc) : FileOps (RootFs φ) where
  stat path b := ramfsStat path b.ramfs
  create path := onRamfs (ramfsCreate alloc path)
  device := none
  read path capacity b := ramfsRead path capacity b.ramfs
  write path bytes := onRamfs (ramfsWrite alloc path bytes)
  mkdir path := onRamfs (ramfsMkdir path)
  unlink path := onRamfs (ramfsUnlink path)
  rmdir path := onRamfs (ramfsRmdir path)

def onOthers (op : φ → Bool × φ) (b : RootFs φ) : Bool × RootFs φ :=
  ((op b.others).1, { b with others := (op b.others).2 })

/-- The operations of another file system, which do not touch the files of ramfs.c. -/
def otherOps (ops : FileOps φ) : FileOps (RootFs φ) where
  stat path b := ops.stat path b.others
  create path := onOthers (ops.create path)
  device := ops.device
  read path capacity b := ops.read path capacity b.others
  write path bytes := onOthers (ops.write path bytes)
  mkdir path := onOthers (ops.mkdir path)
  unlink path := onOthers (ops.unlink path)
  rmdir path := onOthers (ops.rmdir path)

def rootOps (others : FsKind → FileOps φ) (alloc : Kmalloc) : FsKind → FileOps (RootFs φ)
  | .ramfs => ramfsOps alloc
  | kind => otherOps (others kind)

/-- `vfs_open` goes through some of the operations only. -/
def openOps (others : FsKind → FileOps φ) (alloc : Kmalloc) : FsKind → FsOps (RootFs φ) :=
  fun kind => (rootOps others alloc kind).toFsOps

end Operations

section Files

variable {r : Ramfs} {name : Path} {i : Fin ramfsMaxFiles} {f : RamfsFile}

theorem findFile_setFile_same (hu : f.used=(r.files i).used) (hn : f.name=(r.files i).name) :
    findFile name (setFile i f r)=findFile name r := by
  have hfun : (fun j => ((setFile i f r).files j).used && ((setFile i f r).files j).name == name) =
      fun j => (r.files j).used && (r.files j).name == name := by
    funext j
    by_cases hj : j=i
    · rw [hj,setFile_files_self,hu,hn]
    · rw [setFile_files_of_ne hj]
  exact congrArg firstIndex hfun

theorem findFile_written (i : Fin ramfsMaxFiles) (bytes : List UInt8) (data : Nat → UInt8) :
    findFile name (setFile i ((r.files i).written bytes data) r)=findFile name r :=
  findFile_setFile_same (f := (r.files i).written bytes data) rfl rfl

theorem findFile_setFile_new (hfree : findFile name r=none) (hu : f.used=true)
    (hn : f.name=name) : findFile name (setFile i f r)=some i := by
  cases hf : findFile name (setFile i f r) with
  | none =>
    have hi := findFile_none hf i (by rw [setFile_files_self,hu])
    rw [setFile_files_self] at hi
    exact absurd hn hi
  | some j =>
    by_cases hj : j=i
    · rw [hj]
    · obtain ⟨hju,hjn⟩ := findFile_used hf
      rw [setFile_files_of_ne hj] at hju hjn
      exact absurd hjn (findFile_none hfree j hju)

end Files

end ConeOS.Fs
