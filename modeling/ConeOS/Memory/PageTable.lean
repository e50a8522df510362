import ConeOS.Library.Loop
import ConeOS.Memory.Pmm

namespace ConeOS.Memory

open ConeOS.Library

def vmmPresent : BitVec 64 := BitVec.twoPow 64 0
def vmmWritable : BitVec 64 := BitVec.twoPow 64 1
def vmmUser : BitVec 64 := BitVec.twoPow 64 2
def vmmWriteThrough : BitVec 64 := BitVec.twoPow 64 3
def vmmCacheDisable : BitVec 64 := BitVec.twoPow 64 4
def pageSizeFlag : BitVec 64 := BitVec.twoPow 64 7
def vmmCopyOnWrite : BitVec 64 := BitVec.twoPow 64 9
def vmmNoExecute : BitVec 64 := BitVec.twoPow 64 63

/-- A `struct vmm_space` by its contents; `isKernel` tells the static `kernel_space`, which
the code recognises by its address. -/
structure VmmSpace where
  pml4Physical : Nat
  isKernel : Bool
  deriving DecidableEq

/-- Physical memory by page, the allocator, and the root of the kernel's tables.
`kernelPages` are the pages the rest of the kernel holds: its heap, its stacks and the
tables that map them. -/
structure Machine where
  mem : Nat → Block
  pmm : Pmm
  kernelRoot : Nat
  kernelPages : Nat → Bool

namespace Machine

/-- `alloc_page_with_reserve`, giving the number of the page. -/
def alloc (reservePages : Nat) (m : Machine) : Option Nat × Machine :=
  match allocPageWithReserve reservePages m.pmm with
  | (some physical,pmm) => (some (physical/4096), { m with pmm := pmm })
  | (none,pmm) => (none, { m with pmm := pmm })

def allocPage (m : Machine) : Option Nat × Machine := m.alloc 0

def allocUserPage (m : Machine) : Option Nat × Machine := m.alloc pmmKernelReservePages

def freePage (page : Nat) (m : Machine) : Machine :=
  { m with pmm := (pmmFreePage (page*4096) m.pmm).2 }

def retainPage (page : Nat) (m : Machine) : Bool × Machine :=
  let r := pmmRetainPage (page*4096) m.pmm
  (r.1, { m with pmm := r.2 })

def setPage (page : Nat) (b : Block) (m : Machine) : Machine :=
  { m with mem := fun p => if p=page then b else m.mem p }

/-- `table[i]`. -/
def entry (m : Machine) (table i : Nat) : BitVec 64 := m.mem table i

def setEntry (table i : Nat) (e : BitVec 64) (m : Machine) : Machine :=
  m.setPage table (fun j => if j=i then e else m.mem table j)

/-- `clear_table`, and the loops that zero a whole page. -/
def clearPage (page : Nat) (m : Machine) : Machine := m.setPage page (fun _ => 0)

def copyPage (source destination : Nat) (m : Machine) : Machine :=
  m.setPage destination (m.mem source)

/-- `count` bytes from `offset` on inside one page. -/
def writeBytes (page offset count : Nat) (f : Nat → UInt8) (m : Machine) : Machine :=
  m.setPage page (Library.writeBytes offset count f (m.mem page))

end Machine

open Machine

/-- What the rest of the kernel does with pages: it takes and gives back its own and writes
to them, and links tables into the upper half of its root. -/
inductive KernelStep
  | take
  | give (page : Nat)
  | write (page offset : Nat) (byte : UInt8)
  | link (index : Nat) (entry : BitVec 64)

def KernelStep.run (m : Machine) : KernelStep → Machine
  | .take =>
    match m.allocPage with
    | (some page,m) => { m with kernelPages := Function.update m.kernelPages page true }
    | (none,m) => m
  | .give page =>
    if m.kernelPages page then
      { m.freePage page with kernelPages := Function.update m.kernelPages page false }
    else m
  | .write page offset byte =>
    if m.kernelPages page then m.writeBytes page offset 1 (fun _ => byte) else m
  | .link index e => if 256 ≤ index then m.setEntry (m.kernelRoot/4096) index e else m

def runKernel (steps : List KernelStep) (m : Machine) : Machine := steps.foldl KernelStep.run m

/-- What `kmalloc` did: whether it found room, after growing the heap or not. -/
structure KernelWork where
  ok : Bool
  steps : List KernelStep

def kmalloc (work : KernelWork) (m : Machine) : Bool × Machine :=
  (work.ok,runKernel work.steps m)

def addressIsCanonical (address : Nat) : Bool :=
  address/2 ^ 48 == if address/2 ^ 47%2=1 then 0xFFFF else 0

def tableIndices (address : Nat) : List Nat :=
  [address/2 ^ 39%512,address/2 ^ 30%512,address/2 ^ 21%512]

def leafIndex (address : Nat) : Nat := address/2 ^ 12%512

def present (e : BitVec 64) : Bool := hasFlag e vmmPresent

def huge (e : BitVec 64) : Bool := hasFlag e pageSizeFlag

def tableEntry (page : Nat) (flags : BitVec 64) : BitVec 64 :=
  BitVec.ofNat 64 (page*4096) ||| flags

section Map

def createTable (table i : Nat) (flags : BitVec 64) (m : Machine) : Bool × Machine :=
  match m.allocPage with
  | (none,m) => (false,m)
  | (some page,m) =>
    let m := m.clearPage page
    (true, m.setEntry table i
      (tableEntry page (vmmPresent ||| vmmWritable ||| (flags &&& vmmUser))))

/-- The loop of `map_page_locked` over the upper levels, with the tables it created, latest
first, as (table, index, page). -/
def descendCreating (flags : BitVec 64) :
    List Nat → Nat → List (Nat × Nat × Nat) → Machine →
      Option Nat × List (Nat × Nat × Nat) × Machine
  | [], table, created, m => (some table,created,m)
  | i :: is, table, created, m =>
    if !present (m.entry table i) then
      match createTable table i flags m with
      | (false,m) => (none,created,m)
      | (true,m) =>
        let page := addressPage (m.entry table i)
        descendCreating flags is page ((table,i,page) :: created) m
    else if huge (m.entry table i) then (none,created,m)
    else descendCreating flags is (addressPage (m.entry table i)) created m

def rollback : List (Nat × Nat × Nat) → Machine → Machine
  | [], m => m
  | (table,i,page) :: rest, m => rollback rest ((m.setEntry table i 0).freePage page)

/-- The loop that marks the upper levels of a user mapping. -/
def markUser : List Nat → Nat → Machine → Machine
  | [], _, m => m
  | i :: is, table, m =>
    let m := m.setEntry table i (m.entry table i ||| vmmUser)
    markUser is (addressPage (m.entry table i)) m

def leafFlags : BitVec 64 :=
  vmmWritable ||| vmmUser ||| vmmWriteThrough ||| vmmCacheDisable ||| vmmNoExecute |||
    vmmCopyOnWrite

def mapArgumentsValid (space : VmmSpace) (address physical : Nat) (flags : BitVec 64) : Bool :=
  !(!addressIsCanonical address || address%4096 != 0 || physical%4096 != 0 ||
    (hasFlag flags vmmWritable && !hasFlag flags vmmNoExecute) ||
    (hasFlag flags vmmUser && (decide (0x0000800000000000≤address) || space.isKernel)) ||
    (decide (0xFFFF800000000000≤address) && !space.isKernel))

def mapPageLocked (space : VmmSpace) (address physical : Nat) (flags : BitVec 64)
    (m : Machine) : Bool × Machine :=
  if !mapArgumentsValid space address physical flags then (false,m)
  else
    let root := space.pml4Physical/4096
    match descendCreating flags (tableIndices address) root [] m with
    | (none,created,m) => (false,rollback created m)
    | (some table,created,m) =>
      if present (m.entry table (leafIndex address)) then (false,rollback created m)
      else
        let m := m.setEntry table (leafIndex address)
          (tableEntry (physical/4096) (vmmPresent ||| (flags &&& leafFlags)))
        if hasFlag flags vmmUser then (true, markUser (tableIndices address) root m)
        else (true,m)

/-- The tables below the root on the way to a page, unless one is missing or a huge page
is in the way. -/
def walkTables (m : Machine) : List Nat → Nat → Option (List Nat)
  | [], _ => some []
  | i :: is, table =>
    let e := m.entry table i
    if !present e || huge e then none
    else (walkTables m is (addressPage e)).map (addressPage e :: ·)

def tableIsEmpty (m : Machine) (table : Nat) : Bool :=
  (List.range 512).all (fun i => !present (m.entry table i))

/-- The loop of unmap that gives back tables left empty: (table, parent, index), deepest
first. -/
def pruneTables : List (Nat × Nat × Nat) → Machine → Machine
  | [], m => m
  | (table,parent,i) :: rest, m =>
    if !tableIsEmpty m table then m
    else
      let page := addressPage (m.entry parent i)
      pruneTables rest ((m.setEntry parent i 0).freePage page)

def vmmSpaceUnmapPage (space : VmmSpace) (address : Nat) (m : Machine) :
    Option Nat × Machine :=
  if !addressIsCanonical address || address%4096 != 0 ||
      (decide (0xFFFF800000000000≤address) && !space.isKernel) then (none,m)
  else
    let root := space.pml4Physical/4096
    match tableIndices address, walkTables m (tableIndices address) root with
    | [i0,i1,i2], some [t1,t2,t3] =>
      let e := m.entry t3 (leafIndex address)
      if !present e then (none,m)
      else
        (some (addressPage e*4096),
          pruneTables [(t3,t2,i2),(t2,t1,i1),(t1,root,i0)]
            (m.setEntry t3 (leafIndex address) 0))
    | _, _ => (none,m)

/-- The loop of `vmm_space_query` over the levels whose indices are left. -/
def queryFrom (m : Machine) (address : Nat) :
    List Nat → Nat → BitVec 64 → BitVec 64 → Option (Nat × BitVec 64)
  | [], _, _, _ => none
  | i :: is, table, effective, noExecute =>
    let e := m.entry table i
    if !present e || (is.length == 3 && huge e) then none
    else
      let effective := effective &&& (e &&& (vmmWritable ||| vmmUser))
      let noExecute := noExecute ||| (e &&& vmmNoExecute)
      if is.isEmpty || huge e then
        let size := 2 ^ (12+9*is.length)
        some ((e &&& addressMask).toNat/size*size+address%size,
          vmmPresent ||| effective ||| noExecute ||| (e &&& vmmCopyOnWrite))
      else queryFrom m address is (addressPage e) effective noExecute

def vmmSpaceQuery (space : VmmSpace) (address : Nat) (m : Machine) :
    Option (Nat × BitVec 64) :=
  if !addressIsCanonical address then none
  else
    queryFrom m address (tableIndices address ++ [leafIndex address])
      (space.pml4Physical/4096) (vmmWritable ||| vmmUser) 0

def vmmSpaceTranslate (space : VmmSpace) (address : Nat) (m : Machine) : Option Nat :=
  (vmmSpaceQuery space address m).map Prod.fst

def vmmSpaceResolveCow (space : VmmSpace) (address : Nat) (m : Machine) : Int × Machine :=
  if !addressIsCanonical address then (0,m)
  else
    match walkTables m (tableIndices address) (space.pml4Physical/4096) with
    | some [_,_,table] =>
      let old := m.entry table (leafIndex address)
      if (old &&& (vmmPresent ||| vmmUser ||| vmmCopyOnWrite)) ≠
            (vmmPresent ||| vmmUser ||| vmmCopyOnWrite) ∨ hasFlag old vmmWritable then (0,m)
      else
        let oldPage := addressPage old
        let references := pmmPageReferences (oldPage*4096) m.pmm
        if references=0 then (0,m)
        else if references=1 then
          (1, m.setEntry table (leafIndex address)
            ((old ||| vmmWritable) &&& ~~~vmmCopyOnWrite))
        else
          match m.allocUserPage with
          | (none,m) => (-1,m)
          | (some page,m) =>
            let m := m.copyPage oldPage page
            let new := tableEntry page (old &&& ~~~addressMask)
            let new := (new ||| vmmWritable) &&& ~~~vmmCopyOnWrite
            (1, (m.freePage oldPage).setEntry table (leafIndex address) new)
    | _ => (0,m)

end Map

section Spaces

/-- The virtual address of entry `i`; the bits of `base` it would meet are clear. -/
def pageTableVirtualAddress (base i level : Nat) : Nat := base+i*2 ^ (12+9*(level-1))

/-- The entries of a table that belong to user addresses. -/
def userEntries (level : Nat) : Nat := if level=4 then 256 else 512

def destroyClonedTables : Nat → Nat → Machine → Machine
  | 0, page, m => m.freePage page
  | level+1, page, m =>
    let m := if level=0 then m else
      (List.range 512).foldl (fun m i =>
        let e := m.entry page i
        if present e && !huge e then destroyClonedTables level (addressPage e) m else m) m
    m.freePage page

/-- One level of `clone_table` over a list of indices, with the recursive call as an argument. -/
def cloneLevel (clone : Nat → Machine → Option Nat × Machine) (level source : Nat)
    (indices : List Nat) (m : Machine) : Option Nat × Machine :=
  match m.allocPage with
  | (none,m) => (none,m)
  | (some destination,m) =>
    let copied := loopAll (fun i m =>
      let e := m.entry source i
      if !present e || level == 0 || huge e then (true,m.setEntry destination i e)
      else
        match clone (addressPage e) m with
        | (none,m) => (false,m)
        | (some child,m) =>
          (true, m.setEntry destination i (tableEntry child (e &&& ~~~addressMask))))
      indices (m.clearPage destination)
    match copied with
    | (true,m) => (some destination,m)
    | (false,m) => (none, destroyClonedTables (level+1) destination m)

def cloneTable : Nat → Nat → Machine → Option Nat × Machine
  | 0, _, m => (none,m)
  | level+1, source, m => cloneLevel (cloneTable level) level source (List.range 512) m

/-- The loop of `vmm_space_create` over the lower half of the kernel's root; it stops with
the index whose tables could not be cloned. -/
def cloneLowerHalf (root : Nat) : List Nat → Machine → Option Nat × Machine
  | [], m => (none,m)
  | i :: is, m =>
    let e := m.entry (m.kernelRoot/4096) i
    if !present e then cloneLowerHalf root is m
    else
      match cloneTable 3 (addressPage e) m with
      | (none,m) => (some i,m)
      | (some child,m) =>
        cloneLowerHalf root is (m.setEntry root i (tableEntry child (e &&& ~~~addressMask)))

def vmmSpaceCreate (work : KernelWork) (m : Machine) : Option VmmSpace × Machine :=
  match kmalloc work m with
  | (false,m) => (none,m)
  | (true,m) =>
    match m.allocPage with
    | (none,m) => (none,m)
    | (some root,m) =>
      match cloneLowerHalf root (List.range 256) (m.clearPage root) with
      | (some i,m) =>
        let m := (List.range i).foldl (fun m j =>
          let e := m.entry root j
          if present e then destroyClonedTables 3 (addressPage e) m else m) m
        (none,m.freePage root)
      | (none,m) =>
        -- root[i] = kernel_root[i] for the upper half
        let upper := m.mem (m.kernelRoot/4096)
        let lower := m.mem root
        (some ⟨root*4096,false⟩,
          m.setPage root (fun i => if i<256 then lower i else upper i))

def destroyTable : Nat → Nat → Machine → Machine
  | 0, _, m => m
  | level+1, page, m =>
    let m := (List.range 512).foldl (fun m i =>
      let e := m.entry page i
      if !present e then m
      else if level == 0 || huge e then
        if hasFlag e vmmUser then m.freePage (addressPage e) else m
      else destroyTable level (addressPage e) m) m
    m.freePage page

def vmmSpaceDestroy (space : VmmSpace) (m : Machine) : Machine :=
  if space.isKernel then m
  else
    let root := space.pml4Physical/4096
    let m := (List.range 256).foldl (fun m i =>
      let e := m.entry root i
      if present e then destroyTable 3 (addressPage e) m else m) m
    m.freePage root

/-- The flags a clone keeps: a writable page becomes copy-on-write. -/
def cowFlags (e : BitVec 64) : BitVec 64 :=
  let flags := e &&& (vmmWritable ||| vmmUser ||| vmmNoExecute ||| vmmCopyOnWrite)
  if hasFlag flags vmmWritable then (flags &&& ~~~vmmWritable) ||| vmmCopyOnWrite else flags

def cloneUserMappingsCow (child : VmmSpace) : Nat → Nat → Nat → Machine → Bool × Machine
  | 0, _, _, m => (true,m)
  | level+1, table, base, m =>
    loopAll (fun i m =>
      let e := m.entry table i
      if !present e then (true,m)
      else
        let address := pageTableVirtualAddress base i (level+1)
        if level≠0 then
          if huge e then (!hasFlag e vmmUser,m)
          else cloneUserMappingsCow child level (addressPage e) address m
        else if !hasFlag e vmmUser then (true,m)
        else
          match m.retainPage (addressPage e) with
          | (false,m) => (false,m)
          | (true,m) =>
            match mapPageLocked child address (addressPage e*4096) (cowFlags e) m with
            | (true,m) => (true,m)
            | (false,m) => (false, m.freePage (addressPage e)))
      (List.range (userEntries (level+1))) m

def protectUserMappingsCow : Nat → Nat → Machine → Machine
  | 0, _, m => m
  | level+1, table, m =>
    (List.range (userEntries (level+1))).foldl (fun m i =>
      let e := m.entry table i
      if !present e then m
      else if level≠0 then
        if huge e then m else protectUserMappingsCow level (addressPage e) m
      else if (e &&& (vmmPresent ||| vmmUser ||| vmmWritable)) ≠
          (vmmPresent ||| vmmUser ||| vmmWritable) then m
      else m.setEntry table i ((e &&& ~~~vmmWritable) ||| vmmCopyOnWrite)) m

def vmmSpaceCloneCow (work : KernelWork) (space : VmmSpace) (m : Machine) :
    Option VmmSpace × Machine :=
  match vmmSpaceCreate work m with
  | (none,m) => (none,m)
  | (some child,m) =>
    match cloneUserMappingsCow child 4 (space.pml4Physical/4096) 0 m with
    | (false,m) => (none,vmmSpaceDestroy child m)
    | (true,m) => (some child, protectUserMappingsCow 4 (space.pml4Physical/4096) m)

end Spaces

end ConeOS.Memory
