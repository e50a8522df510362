import Mathlib.Data.List.FinRange
import ConeOS.Library.Table
import ConeOS.Library.Ring

namespace ConeOS.Vfs

open ConeOS.Library Function

/-- A C string without its terminator. -/
abbrev Path := List UInt8

def fsPathMax : Nat := 256
def ramfsNameSize : Nat := fsPathMax
def ramfsDataSize : Nat := 32768
def vfsMaxFds : Nat := 32
def vfsMaxProcesses : Nat := 16
def vfsDescriptorSlots : Nat := vfsMaxFds*vfsMaxProcesses
def vfsMaxMounts : Nat := 8
def vfsMaxPipes : Nat := 16
def vfsPipeCapacity : Nat := 4096

inductive PipeMode
  | none
  | read
  | write
  deriving DecidableEq, Repr

inductive DevfsDevice
  | none
  | console
  | null
  | zero
  deriving DecidableEq, Repr

/-- The three operation tables of vfs.c. -/
inductive FsKind
  | ramfs
  | fat32
  | devfs
  deriving DecidableEq, Repr

/-- The function pointers of `struct vfs_fs_ops` that opening a file goes through,
over the state `σ` of the filesystems behind them. -/
structure FsOps (σ : Type) where
  stat : Path → σ → Option Nat
  create : Path → σ → Bool × σ
  device : Option (Path → DevfsDevice)

abbrev FileRef := Fin vfsDescriptorSlots
abbrev PipeRef := Fin vfsMaxPipes
abbrev SlotRef := Fin vfsDescriptorSlots

structure VfsOpenFile where
  used : Bool
  references : Nat
  offset : Nat

structure VfsPipe where
  used : Bool
  readers : Nat
  writers : Nat
  head : Nat
  tail : Nat
  count : Nat
  data : Nat → UInt8

structure VfsMount where
  used : Bool
  removable : Bool
  path : Path
  type : Path
  ops : FsKind

structure VfsFd where
  used : Bool
  owner : Nat
  number : Int
  name : Path
  file : Option FileRef
  device : DevfsDevice
  pipe : Option PipeRef
  pipeMode : PipeMode

/-- The static tables of vfs.c, and the filesystems behind the mount table. -/
structure VfsState (σ : Type) where
  descriptors : SlotRef → VfsFd
  openFiles : FileRef → VfsOpenFile
  mounts : Fin vfsMaxMounts → VfsMount
  pipes : PipeRef → VfsPipe
  backend : σ

section References

variable {σ : Type}

def pipeDropReferenceLocked (pipe : Option PipeRef) (mode : PipeMode) (v : VfsState σ) : VfsState σ :=
  match pipe with
  | none => v
  | some k =>
    let p := v.pipes k
    if !p.used then v
    else
      let p := if mode = .read ∧ p.readers≠0 then { p with readers := p.readers-1 } else p
      let p := if mode = .write ∧ p.writers≠0 then { p with writers := p.writers-1 } else p
      let p := if p.readers=0 ∧ p.writers=0 then
          { p with used := false, head := 0, tail := 0, count := 0 } else p
      { v with pipes := update v.pipes k p }

/-- `target->pipe->readers++` or `writers++`, the unguarded form of dup and dup2. -/
def pipeAddEnd (pipe : Option PipeRef) (mode : PipeMode) (v : VfsState σ) : VfsState σ :=
  match pipe, mode with
  | some k, .read =>
    let p := { v.pipes k with readers := (v.pipes k).readers+1 }
    { v with pipes := update v.pipes k p }
  | some k, .write =>
    let p := { v.pipes k with writers := (v.pipes k).writers+1 }
    { v with pipes := update v.pipes k p }
  | _, _ => v

/-- The form of inherit and fork: an end is counted only while its pipe is in use. -/
def pipeRetainReference (pipe : Option PipeRef) (mode : PipeMode) (v : VfsState σ) : VfsState σ :=
  match pipe with
  | none => v
  | some k => if (v.pipes k).used then pipeAddEnd pipe mode v else v

def allocateOpenFileLocked (v : VfsState σ) : Option FileRef × VfsState σ :=
  match firstIndex (fun k => !(v.openFiles k).used) with
  | none => (none,v)
  | some k =>
    (some k, { v with openFiles := update v.openFiles k ⟨true,1,0⟩ })

def openFileRetainLocked (file : Option FileRef) (v : VfsState σ) : VfsState σ :=
  match file with
  | none => v
  | some k =>
    let f := { v.openFiles k with references := (v.openFiles k).references+1 }
    { v with openFiles := update v.openFiles k f }

def openFileReleaseLocked (file : Option FileRef) (v : VfsState σ) : VfsState σ :=
  match file with
  | none => v
  | some k =>
    let f := v.openFiles k
    if f.references=0 then v
    else
      let f := { f with references := f.references-1 }
      let f := if f.references=0 then { f with used := false, offset := 0 } else f
      { v with openFiles := update v.openFiles k f }

end References

section Lookup

variable {σ : Type}

def lookup (v : VfsState σ) (owner : Nat) (number : Int) : Option SlotRef :=
  firstIndex (fun i => (v.descriptors i).used && (v.descriptors i).owner == owner &&
    (v.descriptors i).number == number)

def allocateSlot (v : VfsState σ) : Option SlotRef :=
  firstIndex (fun i => !(v.descriptors i).used)

def setSlot (i : SlotRef) (fd : VfsFd) (v : VfsState σ) : VfsState σ :=
  { v with descriptors := update v.descriptors i fd }

def standardName : Nat → Path
  | 0 => "stdin".toUTF8.toList
  | 1 => "stdout".toUTF8.toList
  | _ => "stderr".toUTF8.toList

/-- One round of `ensure_standard_streams`; `none` is its early return. -/
def ensureStandardStream (owner : Nat) (number : Nat) (v : VfsState σ) : Option (VfsState σ) :=
  match lookup v owner number with
  | some _ => some v
  | none =>
    match allocateSlot v with
    | none => none
    | some i =>
      some (setSlot i ⟨true,owner,number,standardName number,none,.console,none,.none⟩ v)

def ensureStandardFrom (owner : Nat) : List Nat → VfsState σ → VfsState σ
  | [], v => v
  | n :: ns, v =>
    match ensureStandardStream owner n v with
    | none => v
    | some v' => ensureStandardFrom owner ns v'

def ensureStandardStreams (owner : Nat) (v : VfsState σ) : VfsState σ :=
  ensureStandardFrom owner [0,1,2] v

end Lookup

end ConeOS.Vfs
