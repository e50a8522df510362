import ConeOS.Library.Table
import ConeOS.Process.Image

namespace ConeOS.Process

open ConeOS.Library ConeOS.Memory Function

def maxProcesses : Nat := 16
def maxMmapRegions : Nat := 32
def mmapAddressStart : Nat := 0x0000000100000000
def mmapAddressLimit : Nat := 0x00007F0000000000
def syscallEnomem : Int := -12
def syscallEinval : Int := -22
def processExitOutOfMemory : Int := 137

def protRead : BitVec 64 := BitVec.twoPow 64 0
def protWrite : BitVec 64 := BitVec.twoPow 64 1
def protExec : BitVec 64 := BitVec.twoPow 64 2
def mapPrivate : BitVec 64 := BitVec.twoPow 64 0
def mapAnonymous : BitVec 64 := BitVec.twoPow 64 1

structure MmapRegion where
  start : Nat
  stop : Nat
  protection : BitVec 64
  used : Bool

inductive ProcessState
  | unused
  | running
  | zombie
  deriving DecidableEq, Repr

structure ProcessRecord where
  pid : Nat
  ppid : Nat
  state : ProcessState
  exitStatus : Int
  space : Option VmmSpace
  heapBase : Nat
  programBreak : Nat
  committedPages : Nat
  mappings : Fin maxMmapRegions → MmapRegion

/-- A task as far as its address space goes. Every task that is no zombie may run next. -/
structure Task where
  id : Nat
  zombie : Bool
  space : VmmSpace
  ownsSpace : Bool
  deriving DecidableEq

structure Kernel where
  machine : Machine
  processes : Fin maxProcesses → ProcessRecord
  tasks : List Task
  nextTaskId : Nat

namespace Kernel

def findProcess (s : Kernel) (pid : Nat) : Option (Fin maxProcesses) :=
  firstIndex (fun i => (s.processes i).state != .unused && (s.processes i).pid == pid)

def freeProcessRecord (s : Kernel) : Option (Fin maxProcesses) :=
  firstIndex (fun i => (s.processes i).state == .unused)

def setProcess (i : Fin maxProcesses) (r : ProcessRecord) (s : Kernel) : Kernel :=
  { s with processes := update s.processes i r }

def findTask (s : Kernel) (id : Nat) : Option Task := s.tasks.find? (fun t => t.id == id)

def updateTask (id : Nat) (f : Task → Task) (s : Kernel) : Kernel :=
  { s with tasks := s.tasks.map (fun t => if t.id=id then f t else t) }

def setMachine (m : Machine) (s : Kernel) : Kernel := { s with machine := m }

/-- The record of the current process, if it runs and has a space. -/
def currentProcess (s : Kernel) (current : Nat) :
    Option (Fin maxProcesses × ProcessRecord × VmmSpace) :=
  match s.findProcess current with
  | none => none
  | some i =>
    if (s.processes i).state ≠ .running then none
    else
      match (s.processes i).space with
      | none => none
      | some space => some (i,s.processes i,space)

end Kernel

open Kernel

section Tasks

/-- `task_create_in_space`; `work` stands for the task record and the two kernel stacks. -/
def taskCreateInSpace (work : KernelWork) (space : VmmSpace) (s : Kernel) :
    Option Nat × Kernel :=
  match kmalloc work s.machine with
  | (false,m) => (none,s.setMachine m)
  | (true,m) =>
    (some s.nextTaskId,
      { s with
        machine := m
        tasks := s.tasks ++ [⟨s.nextTaskId,false,space,!space.isKernel⟩]
        nextTaskId := s.nextTaskId+1 })

/-- The loop of `remove_zombies` over the tasks after the main one. `release` names the
kernel pages that the two stacks of a task give back. -/
def removeZombiesFrom (current : Nat) (release : Nat → List Nat) :
    List Task → Machine → List Task × Machine
  | [], m => ([],m)
  | t :: ts, m =>
    if t.id≠current ∧ t.zombie then
      let m := runKernel ((release t.id).map .give) m
      removeZombiesFrom current release ts (if t.ownsSpace then vmmSpaceDestroy t.space m else m)
    else
      let r := removeZombiesFrom current release ts m
      (t :: r.1, r.2)

def removeZombies (current : Nat) (release : Nat → List Nat) (s : Kernel) : Kernel :=
  match s.tasks with
  | [] => s
  | main :: ts =>
    let r := removeZombiesFrom current release ts s.machine
    { s with tasks := main :: r.1, machine := r.2 }

/-- `task_replace_address_space`: the old space of the current task. -/
def taskReplaceAddressSpace (current : Nat) (space : VmmSpace) (s : Kernel) :
    Option VmmSpace × Kernel :=
  match s.findTask current with
  | none => (none,s)
  | some t =>
    if space.isKernel ∨ t.ownsSpace=false ∨ t.space=space then (none,s)
    else
      (some t.space, s.updateTask current (fun t => { t with space := space, ownsSpace := true }))

end Tasks

section Lifecycle

def blankMappings (mappings : Fin maxMmapRegions → MmapRegion) :
    Fin maxMmapRegions → MmapRegion :=
  fun i => { mappings i with used := false }

/-- The argument splitting of `process_spawn_path_args`; `none` is a word that does not fit
its 64 bytes. Every round takes at least one character. -/
def splitArguments : Nat → List UInt8 → List (List UInt8) → Option (List (List UInt8))
  | 0, _, arguments => some arguments
  | rounds+1, rest, arguments =>
    if rest=[] ∨ arguments.length ≥ processMaxArguments then some arguments
    else
      let rest := rest.dropWhile (· == 0x20)
      if rest=[] then some arguments
      else
        let word := rest.takeWhile (· != 0x20)
        if word.length ≥ 64 then none
        else splitArguments rounds (rest.dropWhile (· != 0x20)) (arguments ++ [word])

def loadErrorCode : LoadError → Int
  | .outOfMemory => syscallEnomem
  | .invalid => syscallEinval

/-- The allocations of the rest of the kernel during a spawn or a fork. -/
structure LaunchWork where
  space : KernelWork
  launch : KernelWork
  task : KernelWork

def processSpawn (current : Nat) (work : LaunchWork) (path argument : List UInt8)
    (file : Option (List UInt8)) (s : Kernel) : Int × Kernel :=
  match s.freeProcessRecord with
  | none => (syscallEnomem,s)
  | some record =>
    match splitArguments argument.length argument [path] with
    | none => (syscallEinval,s)
    | some arguments =>
      match createProcessImage work.space file arguments s.machine with
      | (.error e,m) => (loadErrorCode e,s.setMachine m)
      | (.ok image,m) =>
        match kmalloc work.launch m with
        | (false,m) => (syscallEnomem, s.setMachine (vmmSpaceDestroy image.space m))
        | (true,m) =>
          match taskCreateInSpace work.task image.space (s.setMachine m) with
          | (none,s) => (syscallEnomem, s.setMachine (vmmSpaceDestroy image.space s.machine))
          | (some pid,s) =>
            (pid, s.setProcess record
              { pid := pid
                ppid := current
                state := .running
                exitStatus := 0
                space := some image.space
                heapBase := image.heapBase
                programBreak := image.heapBase
                committedPages := image.committedPages
                mappings := blankMappings (s.processes record).mappings })

def processExec (current : Nat) (work : KernelWork) (file : Option (List UInt8))
    (arguments : List (List UInt8)) (s : Kernel) : Int × Kernel :=
  match s.findProcess current with
  | none => (syscallEinval,s)
  | some i =>
    if (s.processes i).state ≠ .running then (syscallEinval,s)
    else
      match createProcessImage work file arguments s.machine with
      | (.error e,m) => (loadErrorCode e,s.setMachine m)
      | (.ok image,m) =>
        match taskReplaceAddressSpace current image.space (s.setMachine m) with
        | (none,s) => (syscallEinval, s.setMachine (vmmSpaceDestroy image.space s.machine))
        | (some old,s) =>
          let s := s.setProcess i
            { s.processes i with
              space := some image.space
              heapBase := image.heapBase
              programBreak := image.heapBase
              committedPages := image.committedPages
              exitStatus := 0
              mappings := blankMappings (s.processes i).mappings }
          (0, s.setMachine (vmmSpaceDestroy old s.machine))

/-- `vfsForked` is what `vfs_fork` returned. -/
def processFork (current : Nat) (work : LaunchWork) (vfsForked : Bool)
    (release : Nat → List Nat) (s : Kernel) : Int × Kernel :=
  match s.currentProcess current, s.freeProcessRecord with
  | some (_,parent,parentSpace), some child =>
    match kmalloc work.launch s.machine with
    | (false,m) => (syscallEnomem,s.setMachine m)
    | (true,m) =>
      match vmmSpaceCloneCow work.space parentSpace m with
      | (none,m) => (syscallEnomem,s.setMachine m)
      | (some space,m) =>
        match taskCreateInSpace work.task space (s.setMachine m) with
        | (none,s) => (syscallEnomem, s.setMachine (vmmSpaceDestroy space s.machine))
        | (some pid,s) =>
          if !vfsForked then
            (syscallEnomem,
              removeZombies current release
                (s.updateTask pid (fun t => { t with zombie := true })))
          else
            (pid, s.setProcess child
              { parent with
                pid := pid, ppid := parent.pid, state := .running, exitStatus := 0,
                space := some space })
  | _, _ => (syscallEnomem,s)

/-- `process_exit_current`, up to the next task's turn. -/
def processExit (current : Nat) (status : Int) (release : Nat → List Nat) (s : Kernel) :
    Kernel :=
  let s := match s.findProcess current with
    | none => s
    | some i => s.setProcess i { s.processes i with exitStatus := status, state := .zombie }
  removeZombies current release (s.updateTask current (fun t => { t with zombie := true }))

/-- One look of `process_waitpid` at the child. -/
def processWaitpid (current pid : Nat) (release : Nat → List Nat) (s : Kernel) :
    Option (Int × Int) × Kernel :=
  match s.findProcess pid with
  | none => (some (-1,0), s)
  | some i =>
    if (s.processes i).ppid≠current then (some (-1,0), s)
    else if (s.processes i).state ≠ .zombie then (none,removeZombies current release s)
    else
      (some (pid, (s.processes i).exitStatus),
        s.setProcess i { s.processes i with state := .unused })

end Lifecycle

section Memory

/-- The zeroing loop of `process_brk`; every round passes at least one byte. -/
def zeroBreak (space : VmmSpace) (requested : Nat) : Nat → Nat → Machine → Machine
  | 0, _, m => m
  | rounds+1, address, m =>
    if requested≤address then m
    else
      let amount := min (4096-address%4096) (requested-address)
      let m := match vmmSpaceTranslate space address m with
        | none => m
        | some physical =>
          m.writeBytes (physical/4096) (physical%4096) amount (fun _ => 0)
      zeroBreak space requested rounds (address+amount) m

/-- The unmapping loops of brk and munmap over `count` pages. -/
def unmapPages (space : VmmSpace) : Nat → Nat → Machine → Machine
  | 0, _, m => m
  | count+1, address, m =>
    let m := match vmmSpaceUnmapPage space address m with
      | (none,m) => m
      | (some physical,m) => m.freePage (physical/4096)
    unmapPages space count (address+4096) m

/-- `committed_pages -= pages`, on a `uint64_t`. -/
def uncommit (committedPages pages : Nat) : Nat := (committedPages+2^64-pages)%2^64

def processBrk (current requested : Nat) (s : Kernel) : Int × Kernel :=
  match s.currentProcess current with
  | none => (syscallEinval,s)
  | some (i,process,space) =>
    if requested=0 then (process.programBreak,s)
    else if requested<process.heapBase ∨ requested > userStackAddress-4096 then
      (syscallEinval,s)
    else
      let oldBreak := process.programBreak
      let oldPage := alignUpPage oldBreak
      let newPage := alignUpPage requested
      let oldHeapPages := (oldPage-process.heapBase)/4096
      let newHeapPages := (newPage-process.heapBase)/4096
      if newHeapPages > oldHeapPages ∧
          (process.committedPages > processMemoryLimitPages ∨
            newHeapPages-oldHeapPages > processMemoryLimitPages-process.committedPages) then
        (syscallEnomem,s)
      else
        let m := if requested > oldBreak then
            zeroBreak space requested (requested-oldBreak) oldBreak s.machine
          else unmapPages space ((oldPage-newPage)/4096) newPage s.machine
        let committed := if newHeapPages ≥ oldHeapPages then
            process.committedPages+(newHeapPages-oldHeapPages)
          else uncommit process.committedPages (oldHeapPages-newHeapPages)
        (requested, (s.setMachine m).setProcess i
          { process with programBreak := requested, committedPages := committed })

def mappingCovering (process : ProcessRecord) (address : Nat) : Option (Fin maxMmapRegions) :=
  firstIndex (fun i => (process.mappings i).used &&
    decide ((process.mappings i).start≤address) && decide (address<(process.mappings i).stop))

def faultProtection (process : ProcessRecord) (address : Nat) : BitVec 64 :=
  if process.heapBase≤address ∧ address<process.programBreak then protRead ||| protWrite
  else
    match mappingCovering process address with
    | none => 0
    | some i => (process.mappings i).protection

/-- The bits of a page-fault error code that user-mode faults carry. -/
structure FaultCode where
  present : Bool
  write : Bool
  fetch : Bool

def faultFlags (protection : BitVec 64) : BitVec 64 :=
  let flags := vmmUser
  let flags := if hasFlag protection protWrite then flags ||| vmmWritable else flags
  if !hasFlag protection protExec then flags ||| vmmNoExecute else flags

def processHandlePageFault (current address : Nat) (code : FaultCode) (s : Kernel) :
    Int × Kernel :=
  match s.currentProcess current with
  | none => (0,s)
  | some (_,process,space) =>
    if code.present then
      if !code.write then (0,s)
      else
        let r := vmmSpaceResolveCow space address s.machine
        (r.1,s.setMachine r.2)
    else
      let protection := faultProtection process address
      if !hasFlag protection protRead || (code.write && !hasFlag protection protWrite) ||
          (code.fetch && !hasFlag protection protExec) then (0,s)
      else
        let page := pageFloor address
        if (vmmSpaceTranslate space page s.machine).isSome then (0,s)
        else
          match s.machine.allocUserPage with
          | (none,m) => (-1,s.setMachine m)
          | (some physical,m) =>
            match mapPageLocked space page (physical*4096) (faultFlags protection)
                (m.clearPage physical) with
            | (true,m) => (1,s.setMachine m)
            | (false,m) => (-1, s.setMachine (m.freePage physical))

def roundedMappingLength (length : Nat) : Option Nat :=
  if length=0 ∨ length > 2 ^ 64-1-4095 then none
  else some ((length+4095)/4096*4096)

def findFreeMappingSlot (process : ProcessRecord) : Option (Fin maxMmapRegions) :=
  firstIndex (fun i => !(process.mappings i).used)

/-- The end of the last region that meets `[candidate, candidate + length)`, or zero. -/
def nextRegion (process : ProcessRecord) (candidate length : Nat) : Nat :=
  (List.finRange maxMmapRegions).foldl (fun next i =>
    let region := process.mappings i
    if !region.used || decide (candidate+length≤region.start) ||
        decide (region.stop≤candidate) then next
    else if region.stop > next then region.stop else next) 0

theorem nextRegion_gt (process : ProcessRecord) (candidate length : Nat) :
    nextRegion process candidate length=0 ∨ candidate<nextRegion process candidate length := by
  have hfrom (is : List (Fin maxMmapRegions)) (next : Nat) (h : next=0 ∨ candidate<next) :
      let r := is.foldl (fun next i =>
        let region := process.mappings i
        if !region.used || decide (candidate+length≤region.start) ||
            decide (region.stop≤candidate) then next
        else if region.stop > next then region.stop else next) next
      r=0 ∨ candidate<r := by
    induction is generalizing next with
    | nil => exact h
    | cons i is ih =>
      apply ih
      dsimp only
      split_ifs with hskip hgt
      · exact h
      · simp only [Bool.or_eq_true,decide_eq_true_eq,not_or] at hskip
        omega
      · exact h
  exact hfrom _ 0 (Or.inl rfl)

/-- Whether one of `count` pages is mapped already. -/
def occupied (space : VmmSpace) (m : Machine) : Nat → Nat → Bool
  | 0, _ => false
  | count+1, page =>
    (vmmSpaceTranslate space page m).isSome || occupied space m count (page+4096)

/-- The search of `select_mapping_address` from one candidate on. -/
def selectFrom (process : ProcessRecord) (space : VmmSpace) (m : Machine) (length : Nat)
    (candidate : Nat) : Option Nat :=
  if mmapAddressLimit-length<candidate then none
  else
    let next := nextRegion process candidate length
    if next≠0 then selectFrom process space m length (alignUpPage next)
    else if occupied space m (length/4096) candidate then
      selectFrom process space m length (candidate+4096)
    else some candidate
termination_by mmapAddressLimit+1-candidate
decreasing_by
  · have hgt := nextRegion_gt process candidate length
    have hup : nextRegion process candidate length ≤
        alignUpPage (nextRegion process candidate length) := by
      unfold alignUpPage
      omega
    omega
  · omega

def selectMappingAddress (process : ProcessRecord) (space : VmmSpace) (m : Machine)
    (hint length : Nat) : Option Nat :=
  if length > mmapAddressLimit-mmapAddressStart then none
  else
    match selectFrom process space m length (if hint=0 then mmapAddressStart else hint) with
    | some address => some address
    | none =>
      if hint≠0 ∧ hint≠mmapAddressStart then
        selectFrom process space m length mmapAddressStart
      else none

def mmapArgumentsValid (hint : Nat) (protection flags : BitVec 64) : Bool :=
  protection &&& ~~~(protRead ||| protWrite ||| protExec) == 0 && hasFlag protection protRead &&
    protection &&& (protWrite ||| protExec) != protWrite ||| protExec &&
    flags == mapPrivate ||| mapAnonymous &&
    (hint == 0 || (hint%4096 == 0 && decide (mmapAddressStart≤hint) &&
      decide (hint < mmapAddressLimit)))

def processMmap (current hint length : Nat) (protection flags : BitVec 64) (s : Kernel) :
    Int × Kernel :=
  match s.currentProcess current, roundedMappingLength length with
  | some (i,process,space), some rounded =>
    if !mmapArgumentsValid hint protection flags then (syscallEinval,s)
    else
      match findFreeMappingSlot process with
      | none => (syscallEnomem,s)
      | some slot =>
        let mappingPages := rounded/4096
        if process.committedPages > processMemoryLimitPages ∨
            mappingPages > processMemoryLimitPages-process.committedPages then (syscallEnomem,s)
        else
          match selectMappingAddress process space s.machine hint rounded with
          | none => (syscallEnomem,s)
          | some address =>
            (address, s.setProcess i
              { process with
                mappings := update process.mappings slot
                  ⟨address,address+rounded,protection,true⟩
                committedPages := process.committedPages+mappingPages })
  | _, _ => (syscallEinval,s)

/-- The first loop of `process_munmap`: the whole range is mapped. -/
def rangeCovered (process : ProcessRecord) (stop cursor : Nat) : Bool :=
  if stop≤cursor then true
  else
    match _hc : mappingCovering process cursor with
    | none => false
    | some i => rangeCovered process stop (min (process.mappings i).stop stop)
termination_by stop-cursor
decreasing_by
  have hi := firstIndex_some _hc
  simp only [Bool.and_eq_true,decide_eq_true_eq] at hi
  omega

/-- Whether the range lies strictly inside a region, the first one that does being what
needs a second slot. -/
def splits (process : ProcessRecord) (address stop : Nat) : Bool :=
  (List.finRange maxMmapRegions).any (fun i =>
    (process.mappings i).used && decide ((process.mappings i).start<address) &&
      decide (stop<(process.mappings i).stop))

def cutRegion (split : Option (Fin maxMmapRegions)) (address stop : Nat)
    (mappings : Fin maxMmapRegions → MmapRegion) (i : Fin maxMmapRegions) :
    Fin maxMmapRegions → MmapRegion :=
  let region := mappings i
  if !region.used || decide (region.stop≤address) || decide (stop≤region.start) then mappings
  else
    let cutStart := max address region.start
    let cutEnd := min stop region.stop
    if cutStart=region.start ∧ cutEnd=region.stop then
      update mappings i { region with used := false }
    else if cutStart=region.start then
      update mappings i { region with start := cutEnd }
    else if cutEnd=region.stop then
      update mappings i { region with stop := cutStart }
    else
      let mappings := match split with
        | none => mappings
        | some j => update mappings j { region with start := cutEnd }
      update mappings i { region with stop := cutStart }

def processMunmap (current address length : Nat) (s : Kernel) : Int × Kernel :=
  match s.currentProcess current, roundedMappingLength length with
  | some (i,process,space), some rounded =>
    if address%4096≠0 ∨ address < mmapAddressStart ∨ address ≥ mmapAddressLimit ∨
        rounded > mmapAddressLimit-address then (syscallEinval,s)
    else
      let stop := address+rounded
      if !rangeCovered process stop address then (syscallEinval,s)
      else
        let split := findFreeMappingSlot process
        if splits process address stop && split.isNone then (syscallEnomem,s)
        else
          let m := unmapPages space (rounded/4096) address s.machine
          let mappings := (List.finRange maxMmapRegions).foldl
            (cutRegion split address stop) process.mappings
          (0, (s.setMachine m).setProcess i
            { process with
              mappings := mappings
              committedPages := uncommit process.committedPages (rounded/4096) })
  | _, _ => (syscallEinval,s)

/-- The loop of `copy_user` that writes to the user; the result tells how many bytes it
wrote and whether these are all. -/
def copyToUserFrom (space : VmmSpace) (address : Nat) (bytes : List UInt8) :
    Nat → Nat → Machine → Nat × Bool × Machine
  | 0, copied, m => (copied,true,m)
  | rounds+1, copied, m =>
    if bytes.length≤copied then (copied,true,m)
    else
      let here := address+copied
      match vmmSpaceQuery space here m with
      | none => (copied,false,m)
      | some (physical,flags) =>
        let resolved := if hasFlag flags vmmCopyOnWrite then
            match vmmSpaceResolveCow space here m with
            | (r,m) => if r≤0 then (none,m) else (vmmSpaceQuery space here m,m)
          else (some (physical,flags), m)
        match resolved with
        | (none,m) => (copied,false,m)
        | (some (physical,flags), m) =>
          if !hasFlag flags vmmUser || !hasFlag flags vmmWritable then (copied,false,m)
          else
            let chunk := min (4096-here%4096) (bytes.length-copied)
            copyToUserFrom space address bytes rounds (copied+chunk)
              (m.writeBytes (physical/4096) (physical%4096) chunk
                (fun i => bytes.getD (copied+i) 0))

def userRangeValid (address size : Nat) : Bool :=
  decide (address<userAddressLimit) && decide (size≤userAddressLimit-address)

/-- `copy_to_user` in the space that is active while the task runs. -/
def copyToUser (current address : Nat) (bytes : List UInt8) (s : Kernel) :
    Nat × Bool × Kernel :=
  match s.findTask current with
  | none => (0,false,s)
  | some t =>
    if bytes=[] then (0,true,s)
    else if !userRangeValid address bytes.length then (0,false,s)
    else
      let r := copyToUserFrom t.space address bytes bytes.length 0 s.machine
      (r.1,r.2.1,s.setMachine r.2.2)

end Memory

end ConeOS.Process
