import ConeOS.Vfs.PathNormal
import ConeOS.Vfs.Descriptor

namespace ConeOS.Vfs

open ConeOS.Library

/-- The function pointers of `struct vfs_fs_ops` that change files and directories, beside
those of opening. -/
structure FileOps (σ : Type) extends FsOps σ where
  read : Path → Nat → σ → Option (List UInt8)
  write : Path → List UInt8 → σ → Bool × σ
  mkdir : Path → σ → Bool × σ
  unlink : Path → σ → Bool × σ
  rmdir : Path → σ → Bool × σ

/-- What a read or a write comes to: it returns, with the bytes it delivers, or it goes on in
one of the loops that may wait, or it prints. -/
inductive Entry
  | returned (status : Int) (count : Nat) (bytes : List UInt8)
  | pipeRead (pipe : PipeRef) (length : Nat)
  | pipeWrite (pipe : PipeRef) (buffer : List UInt8)
  | consoleRead (length : Nat)
  | consoleWrite (buffer : List UInt8)
  deriving DecidableEq

/-- `return -1`. -/
def Entry.failure : Entry := .returned (-1) 0 []

section Model

variable {σ : Type} (ops : FsKind → FileOps σ)

def setOffset (k : FileRef) (offset : Nat) (v : VfsState σ) : VfsState σ :=
  { v with openFiles := Function.update v.openFiles k { v.openFiles k with offset := offset } }

/-- `pipe_read` up to its loop. -/
def pipeRead (fd : VfsFd) (length : Nat) : Entry :=
  match fd.pipe with
  | none => .failure
  | some k =>
    if fd.pipeMode ≠ .read then .failure
    else if length=0 then .returned 0 0 []
    else .pipeRead k length

/-- `pipe_write` up to its loop. -/
def pipeWrite (fd : VfsFd) (buffer : List UInt8) : Entry :=
  match fd.pipe with
  | none => .failure
  | some k =>
    if fd.pipeMode ≠ .write then .failure
    else if 0<buffer.length then .pipeWrite k buffer
    else .returned 0 0 []

def devfsRead (device : DevfsDevice) (length : Nat) : Entry :=
  match device with
  | .null => .returned 0 0 []
  | .zero => .returned 0 length (List.replicate length 0)
  | .none => .failure
  | .console => if length=0 then .returned 0 0 [] else .consoleRead length

def devfsWrite (device : DevfsDevice) (buffer : List UInt8) : Entry :=
  match device with
  | .console => .consoleWrite buffer
  | .null => .returned 0 buffer.length []
  | .zero => .returned 0 buffer.length []
  | .none => .failure

/-- `vfs_read` from the lookup of the operations on. -/
def readFile (fd : VfsFd) (length : Nat) (v : VfsState σ) : Entry × VfsState σ :=
  let (kind,backendPath) := pathOps v fd.name
  match fd.file with
  | none => (.failure,v)
  | some k =>
    match (ops kind).read backendPath ramfsDataSize v.backend with
    | none => (.failure,v)
    | some data =>
      let offset := (v.openFiles k).offset
      if offset ≥ data.length then (.returned 0 0 [],v)
      else
        let n := min (data.length-offset) length
        (.returned 0 n ((data.drop offset).take n), setOffset k (offset+n) v)

/-- `vfs_write` from the lookup of the operations on. -/
def writeFile (fd : VfsFd) (buffer : List UInt8) (v : VfsState σ) : Entry × VfsState σ :=
  let (kind,backendPath) := pathOps v fd.name
  match fd.file with
  | none => (.failure,v)
  | some k =>
    match (ops kind).write backendPath buffer v.backend with
    | (false,b) => (.failure, { v with backend := b })
    | (true,b) => (.returned 0 buffer.length [], setOffset k buffer.length { v with backend := b })

def vfsRead (owner : Nat) (number : Int) (length : Nat) (v : VfsState σ) : Entry × VfsState σ :=
  let v := ensureStandardStreams owner v
  match lookup v owner number with
  | none => (.failure,v)
  | some i =>
    let fd := v.descriptors i
    if fd.pipeMode ≠ .none then (pipeRead fd length,v)
    else if number=1 ∨ number=2 then (.failure,v)
    else if fd.device ≠ .none then (devfsRead fd.device length,v)
    else if number<3 then (.failure,v)
    else readFile ops fd length v

def vfsWrite (owner : Nat) (number : Int) (buffer : List UInt8) (v : VfsState σ) :
    Entry × VfsState σ :=
  let v := ensureStandardStreams owner v
  match lookup v owner number with
  | none => (.failure,v)
  | some i =>
    let fd := v.descriptors i
    if buffer.length > ramfsDataSize then (.failure,v)
    else if fd.pipeMode ≠ .none then (pipeWrite fd buffer,v)
    else if number=0 then (.failure,v)
    else if fd.device ≠ .none then (devfsWrite fd.device buffer,v)
    else writeFile ops fd buffer v

/-- The start that `whence` names; `none` for a value it does not know. -/
def seekBase (whence : Int) (offset size : Nat) : Option Nat :=
  if whence=0 then some 0
  else if whence=1 then some offset
  else if whence=2 then some size
  else none

/-- `vfs_seek` from the lookup of the operations on. -/
def seekFile (fd : VfsFd) (offset whence : Int) (v : VfsState σ) : Int × VfsState σ :=
  match fd.file with
  | none => (-1,v)
  | some k =>
    match (ops (pathOps v fd.name).1).stat (pathOps v fd.name).2 v.backend with
    | none => (-1,v)
    | some size =>
      match seekBase whence (v.openFiles k).offset size with
      | none => (-1,v)
      | some base =>
        if base+offset<0 ∨ size<base+offset then (-1,v)
        else (base+offset, setOffset k (base+offset).toNat v)

def vfsSeek (owner : Nat) (number : Int) (offset whence : Int) (v : VfsState σ) :
    Int × VfsState σ :=
  match lookup v owner number with
  | none => (-1,v)
  | some i =>
    let fd := v.descriptors i
    if number<3 ∨ fd.device ≠ .none ∨ fd.pipeMode ≠ .none then (-1,v)
    else seekFile ops fd offset whence v

/-- `vfs_mkdir`, `vfs_unlink` and `vfs_rmdir`: the path is resolved and handed to the file
system that has it. -/
def onPath (op : FileOps σ → Path → σ → Bool × σ) (cwd : Option Path) (path : Path)
    (v : VfsState σ) : Bool × VfsState σ :=
  match resolvePath cwd path ramfsNameSize with
  | none => (false,v)
  | some absolute =>
    let r := op (ops (pathOps v absolute).1) (pathOps v absolute).2 v.backend
    (r.1, { v with backend := r.2 })

def vfsMkdir (cwd : Option Path) (path : Path) (v : VfsState σ) : Bool × VfsState σ :=
  onPath ops FileOps.mkdir cwd path v

def vfsUnlink (cwd : Option Path) (path : Path) (v : VfsState σ) : Bool × VfsState σ :=
  onPath ops FileOps.unlink cwd path v

def vfsRmdir (cwd : Option Path) (path : Path) (v : VfsState σ) : Bool × VfsState σ :=
  onPath ops FileOps.rmdir cwd path v

end Model

end ConeOS.Vfs
