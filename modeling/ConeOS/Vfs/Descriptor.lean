import ConeOS.Vfs.Path

namespace ConeOS.Vfs

open ConeOS.Library

/-- What a call of vfs.c leaves: its return value, whether it ran `task_wake_blocked`,
and the tables. -/
structure Outcome (σ : Type) where
  value : Int
  wakes : Bool
  state : VfsState σ

/-- The first two elements of a scan that passes over those failing the test. -/
def firstTwo {α : Type} (p : α → Bool) (l : List α) : Option (α × α) :=
  match l.filter p with
  | a :: b :: _ => some (a,b)
  | _ => none

section Operations

variable {σ : Type}

def blankFd : VfsFd := ⟨false,0,0,[],none,.none,none,.none⟩

@[irreducible]
def vfsInit (backend : σ) : VfsState σ :=
  let v : VfsState σ :=
    { descriptors := fun _ => blankFd
      openFiles := fun _ => ⟨false,0,0⟩
      mounts := fun _ => ⟨false,false,[],[],.ramfs⟩
      pipes := fun _ => ⟨false,0,0,0,0,0,fun _ => 0⟩
      backend := backend }
  let v := (installMount "/dev".toUTF8.toList "devfs".toUTF8.toList .devfs false v).2
  ensureStandardStreams 0 v

/-- The lowest number from `first` on that the owner does not use yet. -/
def freeNumber (v : VfsState σ) (owner first : Nat) : Option Nat :=
  (List.range' first (vfsMaxFds-first)).find? (fun n => (lookup v owner n).isNone)

/-- `!stat(backend) && (!create || !create(backend))` decides whether open goes on. -/
def statOrCreate (ops : FsOps σ) (backendPath : Path) (create : Bool) (b : σ) : Bool × σ :=
  if (ops.stat backendPath b).isSome then (true,b)
  else if create then ops.create backendPath b
  else (false,b)

/-- The interrupt-locked part of `vfs_open`. -/
def openDescriptor (owner : Nat) (name : Path) (device : DevfsDevice) (v : VfsState σ) :
    Outcome σ :=
  match freeNumber v owner 3 with
  | none => ⟨-1,false,v⟩
  | some number =>
    match allocateSlot v, allocateOpenFileLocked v with
    | some i, (some k,w) =>
      ⟨number,false,setSlot i ⟨true,owner,number,name,some k,device,none,.none⟩ w⟩
    | none, (some k,w) => ⟨-1,false,openFileReleaseLocked (some k) w⟩
    | _, (none,w) => ⟨-1,false,w⟩

def vfsOpen (ops : FsKind → FsOps σ) (cwd : Option Path) (owner : Nat) (name : Path)
    (create : Bool) (v : VfsState σ) : Outcome σ :=
  if name=[] ∨ name.length ≥ ramfsNameSize then ⟨-1,false,v⟩
  else
    match resolvePath cwd name ramfsNameSize with
    | none => ⟨-1,false,v⟩
    | some name =>
      let (kind,backendPath) := pathOps v name
      match statOrCreate (ops kind) backendPath create v.backend with
      | (false,b) => ⟨-1,false,{ v with backend := b }⟩
      | (true,b) =>
        let device := match (ops kind).device with
          | none => DevfsDevice.none
          | some f => f backendPath
        openDescriptor owner name device (ensureStandardStreams owner { v with backend := b })

def vfsPipe (owner : Nat) (v : VfsState σ) : Outcome σ × Option (Nat × Nat) :=
  let v := ensureStandardStreams owner v
  match firstIndex (fun k => !(v.pipes k).used),
      firstTwo (fun n : Nat => (lookup v owner n).isNone) (List.range' 3 (vfsMaxFds-3)),
      firstTwo (fun i => !(v.descriptors i).used) (List.finRange vfsDescriptorSlots) with
  | some k, some (n0,n1), some (i0,i1) =>
    let fresh : VfsPipe := ⟨true,1,1,0,0,0,(v.pipes k).data⟩
    let v := { v with pipes := Function.update v.pipes k fresh }
    let name := "[pipe]".toUTF8.toList
    let v := setSlot i0 ⟨true,owner,n0,name,none,.none,some k,.read⟩ v
    let v := setSlot i1 ⟨true,owner,n1,name,none,.none,some k,.write⟩ v
    (⟨0,false,v⟩, some (n0,n1))
  | _, _, _ => (⟨-1,false,v⟩,none)

/-- `*target = saved` with the new owner and number, then one more reference to
whatever it holds. -/
def duplicateInto (target : SlotRef) (saved : VfsFd) (owner : Nat) (number : Int)
    (v : VfsState σ) : VfsState σ :=
  let fd := { saved with owner := owner, number := number, used := true }
  pipeAddEnd fd.pipe fd.pipeMode (openFileRetainLocked fd.file (setSlot target fd v))

def vfsDup (owner : Nat) (number : Int) (v : VfsState σ) : Outcome σ :=
  let v := ensureStandardStreams owner v
  match lookup v owner number with
  | none => ⟨-1,false,v⟩
  | some source =>
    match freeNumber v owner 0, allocateSlot v with
    | some destination, some target =>
      ⟨destination,false,duplicateInto target (v.descriptors source) owner destination v⟩
    | _, _ => ⟨-1,false,v⟩

/-- The slot dup2 writes to: the one holding the number, else a free one. -/
def dup2Target (v : VfsState σ) (owner : Nat) (number : Int) : Option SlotRef :=
  match lookup v owner number with
  | some i => some i
  | none => allocateSlot v

def vfsDup2 (owner : Nat) (sourceNumber destinationNumber : Int) (v : VfsState σ) : Outcome σ :=
  if destinationNumber<0 ∨ destinationNumber ≥ vfsMaxFds then ⟨-1,false,v⟩
  else
    let v := ensureStandardStreams owner v
    match lookup v owner sourceNumber with
    | none => ⟨-1,false,v⟩
    | some source =>
      if sourceNumber=destinationNumber then ⟨destinationNumber,false,v⟩
      else
        let saved := v.descriptors source
        match dup2Target v owner destinationNumber with
        | none => ⟨-1,false,v⟩
        | some target =>
          let old := v.descriptors target
          let w := if old.used then
              openFileReleaseLocked old.file (pipeDropReferenceLocked old.pipe old.pipeMode v)
            else v
          ⟨destinationNumber,true,duplicateInto target saved owner destinationNumber w⟩

/-- The body shared by close and the loop of close_all. -/
def closeSlot (i : SlotRef) (v : VfsState σ) : VfsState σ :=
  let fd := v.descriptors i
  let v := openFileReleaseLocked fd.file (pipeDropReferenceLocked fd.pipe fd.pipeMode v)
  setSlot i { fd with used := false, file := none, pipe := none, pipeMode := .none } v

def vfsClose (owner : Nat) (number : Int) (v : VfsState σ) : Outcome σ :=
  match lookup v owner number with
  | none => ⟨-1,false,v⟩
  | some i =>
    if number<3 then ⟨-1,false,v⟩
    else ⟨0,(v.descriptors i).pipeMode ≠ .none,closeSlot i v⟩

def closeAllFrom (owner : Nat) : List SlotRef → Bool × VfsState σ → Bool × VfsState σ
  | [], r => r
  | i :: is, (closedPipe,v) =>
    if (v.descriptors i).used && (v.descriptors i).owner == owner then
      closeAllFrom owner is
        (closedPipe || (v.descriptors i).pipeMode ≠ .none, closeSlot i v)
    else closeAllFrom owner is (closedPipe,v)

@[irreducible]
def vfsCloseAll (owner : Nat) (v : VfsState σ) : Bool × VfsState σ :=
  closeAllFrom owner (List.finRange vfsDescriptorSlots) (false,v)

/-- One round of the loop of `vfs_inherit_standard`; `none` is its failure branch. -/
def inheritSlot (parent child : Nat) (number : Nat) (v : VfsState σ) : Option (VfsState σ) :=
  match lookup v parent number, allocateSlot v with
  | some source, some target =>
    let fd := { v.descriptors source with owner := child }
    some (pipeRetainReference fd.pipe fd.pipeMode
      (openFileRetainLocked fd.file (setSlot target fd v)))
  | _, _ => none

def inheritFrom (parent child : Nat) : List Nat → VfsState σ → Bool × VfsState σ
  | [], v => (true,v)
  | n :: ns, v =>
    match inheritSlot parent child n v with
    | none => (false,v)
    | some v' => inheritFrom parent child ns v'

def vfsInheritStandard (parent child : Nat) (v : VfsState σ) : Outcome σ :=
  let closed := vfsCloseAll child (ensureStandardStreams parent v)
  match inheritFrom parent child [0,1,2] closed.2 with
  | (true,v) => ⟨1,closed.1,v⟩
  | (false,v) => ⟨0,closed.1 || (vfsCloseAll child v).1,(vfsCloseAll child v).2⟩

/-- One round of the copying loop of `vfs_fork`: nothing for a slot that is not the
parent's, `none` when no slot is left. -/
def forkSlot (parent child : Nat) (i : SlotRef) (v : VfsState σ) : Option (Bool × VfsState σ) :=
  let source := v.descriptors i
  if !source.used || source.owner != parent then some (false,v)
  else
    match allocateSlot v with
    | none => none
    | some target =>
      let fd := { source with owner := child, used := true }
      let v := openFileRetainLocked fd.file (setSlot target fd v)
      let inherited := match fd.pipe with
        | none => false
        | some k => fd.pipeMode ≠ .none && (v.pipes k).used
      some (inherited,pipeRetainReference fd.pipe fd.pipeMode v)

def forkFrom (parent child : Nat) : List SlotRef → Bool → VfsState σ → Option Bool × VfsState σ
  | [], inherited, v => (some inherited,v)
  | i :: is, inherited, v =>
    match forkSlot parent child i v with
    | none => (none,v)
    | some (more,v') => forkFrom parent child is (inherited || more) v'

@[irreducible]
def vfsFork (parent child : Nat) (v : VfsState σ) : Outcome σ :=
  let closed := vfsCloseAll child (ensureStandardStreams parent v)
  let needed := tally (fun fd : VfsFd => fd.used && fd.owner == parent) closed.2.descriptors
  let available := tally (fun fd : VfsFd => !fd.used) closed.2.descriptors
  if needed > available then ⟨0,closed.1,closed.2⟩
  else
    match forkFrom parent child (List.finRange vfsDescriptorSlots) false closed.2 with
    | (some inheritedPipe,v) => ⟨1,closed.1 || inheritedPipe,v⟩
    | (none,v) => ⟨0,closed.1 || (vfsCloseAll child v).1,(vfsCloseAll child v).2⟩

end Operations

end ConeOS.Vfs
