import ConeOS.Fs.RamfsMap
import ConeOS.Library.Reading
import Mathlib.Tactic.Ring

namespace ConeOS.Fs

open ConeOS.Library
open ConeOS.Library.Reading
open ConeOS.Vfs (Path ramfsNameSize ramfsDataSize dot slash)

section Unpacking

/-- `octal_size`: the text ends at a NUL, and what is no octal digit is skipped. -/
def octalSize : Nat → Nat → Nat → Reading Nat
  | _, 0, value => pure value
  | text, length+1, value => do
    let c ← byte text
    if c=0 then pure value
    else if c.toNat<48 ∨ 55<c.toNat then octalSize (text+1) length value
    else octalSize (text+1) length (value*8+(c.toNat-48))

/-- `block_empty`, for the rest of a block. -/
def blockEmpty : Nat → Nat → Reading Bool
  | _, 0 => pure true
  | offset, count+1 => do
    let c ← byte offset
    if c=0 then blockEmpty (offset+1) count else pure false

/-- `while (name[source] && target < sizeof(path) - 1)`, with `room` bytes left in `path`: the
name is read before the room is looked at. -/
def copyName : Nat → Nat → Reading Path
  | source, 0 => do
    let _ ← byte source
    pure []
  | source, room+1 => do
    let c ← byte source
    if c=0 then pure []
    else do
      let rest ← copyName (source+1) room
      pure (c :: rest)

/-- `name[0] == '.' && name[1] == '/'`. -/
def dotted (name : Nat) : Reading Bool := do
  let first ← byte name
  if first=dot then do
    let second ← byte (name+1)
    pure (decide (second=slash))
  else pure false

/-- The path under which the member with this header is stored. -/
def headerPath (header : Nat) : Reading Path := do
  let dotted ← dotted header
  let source := if dotted then header+1 else header
  let c ← byte source
  if c=slash then copyName source (ramfsNameSize-1)
  else do
    let rest ← copyName source (ramfsNameSize-2)
    pure (slash :: rest)

/-- `(size + 511) & ~511`. -/
def padded (size : Nat) : Nat := (size+511)/512*512

/-- The loop of `initramfs_mount` over a module of `size` bytes; `alloc` answers the request for
the contents of the member whose header lies at an offset. `none` is a loop that has not come
to its end in the given number of rounds. -/
def mountLoop (alloc : Nat → Kmalloc) (size : Nat) :
    Nat → Nat → Ramfs → Reading (Option (Bool × Ramfs))
  | 0, _, _ => pure none
  | rounds+1, offset, r =>
    if size<offset+512 then pure (some (true,r))
    else do
      let empty ← blockEmpty offset 512
      if empty then pure (some (true,r))
      else do
        let length ← octalSize (offset+124) 12 0
        let type ← byte (offset+156)
        if size<offset+512+length then pure (some (false,r))
        else if type=48 ∨ type=0 then
          if ramfsDataSize<length then pure (some (false,r))
          else do
            let path ← headerPath offset
            let data ← block (offset+512) length
            if (ramfsWrite (alloc offset) path data r).1 then
              mountLoop alloc size rounds (offset+512+padded length)
                (ramfsWrite (alloc offset) path data r).2
            else pure (some (false, (ramfsWrite (alloc offset) path data r).2))
        else mountLoop alloc size rounds (offset+512+padded length) r

/-- `initramfs_mount`; there may be no module. -/
def initramfsMount (alloc : Nat → Kmalloc) (module : Option Nat) (r : Ramfs) :
    Reading (Option (Bool × Ramfs)) :=
  match module with
  | none => pure (some (false,r))
  | some size => mountLoop alloc size (size/512+1) 0 r

end Unpacking

section Termination

variable {alloc : Nat → Kmalloc} {size limit : Nat} {bytes : Nat → UInt8}
  {rounds offset source : Nat} {r : Ramfs}

/-- One round of the loop. -/
theorem value_mountLoop (rounds offset : Nat) (r : Ramfs) :
    (mountLoop alloc size (rounds+1) offset r).value bytes =
      if size<offset+512 then some (true,r)
      else if (blockEmpty offset 512).value bytes then some (true,r)
      else
        let length := (octalSize (offset+124) 12 0).value bytes
        if size<offset+512+length then some (false,r)
        else if bytes (offset+156)=48 ∨ bytes (offset+156)=0 then
          if ramfsDataSize<length then some (false,r)
          else
            let written := ramfsWrite (alloc offset) ((headerPath offset).value bytes)
              ((block (offset+512) length).value bytes) r
            if written.1 then
              (mountLoop alloc size rounds (offset+512+padded length) written.2).value bytes
            else some (false,written.2)
        else (mountLoop alloc size rounds (offset+512+padded length) r).value bytes := by
  rw [mountLoop]
  simp only [value_ite,value_bind,value_pure,value_byte]

theorem mountLoop_returns
    (h : size<offset+(rounds+1)*512) :
    ((mountLoop alloc size (rounds+1) offset r).value bytes).isSome=true := by
  induction rounds generalizing offset r with
  | zero =>
    rw [value_mountLoop,if_pos (by omega)]
    rfl
  | succ rounds ih =>
    have hnext : ∀ step r, ((mountLoop alloc size (rounds+1)
        (offset+512+step) r).value bytes).isSome=true := by
      intro step r
      apply ih
      omega
    rw [value_mountLoop]
    dsimp only
    split_ifs
    · rfl
    · rfl
    · rfl
    · rfl
    · exact hnext _ _
    · rfl
    · exact hnext _ _

theorem below_octalSize {text length value : Nat} (h : text+length≤limit) :
    Below limit (octalSize text length value) bytes := by
  induction length generalizing text value with
  | zero => exact below_pure _
  | succ length ih =>
    refine below_bind (below_byte (by omega)) (below_ite (fun _ => below_pure _) (fun _ => ?_))
    exact below_ite (fun _ => ih (by omega)) (fun _ => ih (by omega))

theorem below_blockEmpty {count : Nat} (h : offset+count≤limit) :
    Below limit (blockEmpty offset count) bytes := by
  induction count generalizing offset with
  | zero => exact below_pure _
  | succ count ih =>
    refine below_bind (below_byte (by omega)) ?_
    exact below_ite (fun _ => ih (by omega)) (fun _ => below_pure _)

theorem below_copyName {room : Nat} (h : source+room<limit) :
    Below limit (copyName source room) bytes := by
  induction room generalizing source with
  | zero => exact below_bind (below_byte h) (below_pure _)
  | succ room ih =>
    refine below_bind (below_byte (by omega)) (below_ite (fun _ => below_pure _) (fun _ => ?_))
    exact below_bind (ih (by omega)) (below_pure _)

theorem below_pathFrom (h : source+256≤limit) :
    Below limit (do
      let c ← byte source
      if c=slash then copyName source (ramfsNameSize-1)
      else do
        let rest ← copyName source (ramfsNameSize-2)
        pure (slash :: rest)) bytes := by
  have hname : ramfsNameSize=256 := rfl
  refine below_bind (below_byte (by omega)) (below_ite (fun _ => ?_) (fun _ => ?_))
  · exact below_copyName (by omega)
  · exact below_bind (below_copyName (by omega)) (below_pure _)

theorem below_headerPath {header : Nat} (h : header+512≤limit) :
    Below limit (headerPath header) bytes := by
  refine below_bind (below_bind (below_byte (by omega)) ?_) (below_pathFrom ?_)
  · exact below_ite (fun _ => below_bind (below_byte (by omega)) (below_pure _))
      (fun _ => below_pure _)
  · split_ifs <;> omega

theorem below_mountLoop :
    Below size (mountLoop alloc size rounds offset r) bytes := by
  induction rounds generalizing offset r with
  | zero => exact below_pure _
  | succ rounds ih =>
    refine below_ite (fun _ => below_pure _) (fun hfits => ?_)
    refine below_bind (below_blockEmpty (by omega)) (below_ite (fun _ => below_pure _) (fun _ => ?_))
    refine below_bind (below_octalSize (by omega)) (below_bind (below_byte (by omega)) ?_)
    refine below_ite (fun _ => below_pure _) (fun hlength => ?_)
    refine below_ite (fun _ => ?_) (fun _ => ih)
    refine below_ite (fun _ => below_pure _) (fun _ => ?_)
    refine below_bind (below_headerPath (by omega)) (below_bind (below_block (by omega)) ?_)
    exact below_ite (fun _ => ih) (fun _ => below_pure _)

/-- Whatever the archive holds, unpacking it ends and reads nothing outside of it. -/
theorem initramfs_unpacked_safely (alloc : Nat → Kmalloc) (size : Nat) (r : Ramfs)
    (bytes : Nat → UInt8) :
    ((initramfsMount alloc (some size) r).value bytes).isSome=true ∧
      Below size (initramfsMount alloc (some size) r) bytes := by
  refine ⟨mountLoop_returns ?_,below_mountLoop⟩
  omega

end Termination

end ConeOS.Fs
