import ConeOS.Vfs.Basic

namespace ConeOS.Vfs

open ConeOS.Library

def slash : UInt8 := 47
def dot : UInt8 := 46

/-- The string in a buffer. -/
def cString (buffer : List UInt8) : Path := buffer.takeWhile (· ≠ 0)

/-- The pieces of a path between its slashes; empty ones are dropped by the callers. -/
def components : Path → List Path
  | [] => [[]]
  | c :: cs =>
    if c=slash then [] :: components cs
    else
      match components cs with
      | [] => [[c]]
      | p :: ps => (c :: p) :: ps

/-- `..` in `resolve_path`: drop a trailing slash, then the last component. The output is
kept reversed, so its last character is the head. -/
def popComponent (out : Path) : Path :=
  if out.length > 1 then
    let out := if out.head? = some slash then out.tail else out
    dropToSlash out
  else out
where
  dropToSlash : Path → Path
    | [] => []
    | c :: cs => if cs=[] ∨ c=slash then c :: cs else dropToSlash cs

/-- One round of the main loop of `resolve_path` on the reversed output. -/
def pushComponent (capacity : Nat) (out part : Path) : Option Path :=
  if part=[] ∨ part=[dot] then some out
  else if part=[dot,dot] then some (popComponent out)
  else
    let needsSlash := out.length > 1 ∧ out.head? ≠ some slash
    if needsSlash ∧ out.length ≥ capacity-1 then none
    else
      let out := if needsSlash then slash :: out else out
      if out.length+part.length ≥ capacity then none
      else some (part.reverse ++ out)

def pushComponents (capacity : Nat) : List Path → Path → Option Path
  | [], out => some out
  | p :: ps, out =>
    match pushComponent capacity out p with
    | none => none
    | some out => pushComponents capacity ps out

/-- `cwd` is what `process_getcwd` delivers, `none` when it does not fit its buffer. -/
def resolvePath (cwd : Option Path) (input : Path) (capacity : Nat) : Option Path :=
  if capacity<2 then none
  else
    let start : Option Path :=
      if input.head? = some slash then some [slash]
      else cwd.map (fun c => (c.take (capacity-1)).reverse)
    match start with
    | none => none
    | some out =>
      match pushComponents capacity (components input) out with
      | none => none
      | some [] => some [slash]
      | some out => some out.reverse

/-- The prefix has to end at a component border of the path. -/
def pathHasPrefix : Path → Path → Bool
  | [], [] => true
  | c :: _, [] => c == slash
  | [], _ :: _ => false
  | c :: cs, p :: ps => c == p && pathHasPrefix cs ps

section Mounts

variable {σ : Type}

/-- The mount loop of `find_mount`: a later mount of the same length wins. -/
def bestMount (v : VfsState σ) (path : Path) : Option (Fin vfsMaxMounts) :=
  (List.finRange vfsMaxMounts).foldl
    (fun best i =>
      if !(v.mounts i).used || !pathHasPrefix path (v.mounts i).path then best
      else
        let bestLength := match best with
          | none => 0
          | some b => (v.mounts b).path.length
        if (v.mounts i).path.length ≥ bestLength then some i else best)
    none

def findMount (v : VfsState σ) (path : Path) : Option (Fin vfsMaxMounts × Path) :=
  match bestMount v path with
  | none => none
  | some i =>
    let tail := path.drop (v.mounts i).path.length
    some (i,if tail.head? = some slash then tail.tail else tail)

def pathOps (v : VfsState σ) (path : Path) : FsKind × Path :=
  match findMount v path with
  | some (i,relative) => ((v.mounts i).ops, relative)
  | none => (.ramfs,path)

def installMount (path type : Path) (ops : FsKind) (removable : Bool) (v : VfsState σ) :
    Bool × VfsState σ :=
  match firstIndex (fun i => (v.mounts i).used && (v.mounts i).path == path) with
  | some _ => (false,v)
  | none =>
    match firstIndex (fun i => !(v.mounts i).used) with
    | none => (false,v)
    | some i =>
      (true, { v with mounts := Function.update v.mounts i ⟨true,removable,path,type,ops⟩ })

end Mounts

end ConeOS.Vfs
