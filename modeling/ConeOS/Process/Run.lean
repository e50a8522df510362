import ConeOS.Process.Kernel

namespace ConeOS.Process

open ConeOS.Library ConeOS.Memory Function

inductive Access
  | read
  | write
  | fetch
  deriving DecidableEq, Repr

/-- What runs between two moments at which the scheduler may switch. Each names the task
that acts; `release` are the kernel pages of the tasks it reaps. -/
inductive Op
  | kernel (steps : List KernelStep)
  | kernelTask (work : KernelWork)
  | spawn (current : Nat) (work : LaunchWork) (path argument : List UInt8)
      (file : Option (List UInt8))
  | exec (current : Nat) (work : KernelWork) (file : Option (List UInt8))
      (arguments : List (List UInt8))
  | fork (current : Nat) (work : LaunchWork) (vfsForked : Bool) (release : Nat → List Nat)
  | exit (current : Nat) (status : Int) (release : Nat → List Nat)
  | yield (current : Nat) (release : Nat → List Nat)
  | waitpid (current pid : Nat) (release : Nat → List Nat)
  | access (current : Nat) (kind : Access) (address : Nat) (byte : UInt8)
      (release : Nat → List Nat)
  | copyToUser (current address : Nat) (bytes : List UInt8)
  | brk (current requested : Nat)
  | mmap (current hint length : Nat) (protection flags : BitVec 64)
  | munmap (current address length : Nat)

/-- What an operation did to the memory of the task `task`. -/
inductive Event
  | forked (task child : Nat)
  | stored (task address : Nat) (bytes : List UInt8)
  | filled (task page : Nat)
  | zeroed (task start stop : Nat)
  | unmapped (task start stop : Nat)
  | loaded (task : Nat) (image : Nat → Option UInt8)
  | ended (task : Nat)

/-- The byte a user-mode load finds through the tables of a space. -/
def visibleIn (space : VmmSpace) (m : Machine) (address : Nat) : Option UInt8 :=
  if userAddressLimit≤address then none
  else
    match vmmSpaceQuery space address m with
    | none => none
    | some (physical,flags) =>
      if hasFlag flags vmmUser then some (readByte (m.mem (physical/4096)) (physical%4096))
      else none

/-- The user-visible memory of a task that still runs. -/
def visible (s : Kernel) (task address : Nat) : Option UInt8 :=
  match s.findTask task with
  | none => none
  | some t => if t.zombie ∨ t.space.isKernel then none else visibleIn t.space s.machine address

/-- What each task sees of its memory. -/
abbrev View := Nat → Nat → Option UInt8

/-- What an event does where every task has a copy of its own of each page. -/
def Event.apply (v : View) : Event → View
  | .forked task child => update v child (v task)
  | .stored task address bytes => update v task (fun a =>
      if address≤a ∧ a<address+bytes.length then bytes[a-address]? else v task a)
  | .filled task page => update v task (fun a => if pageFloor a=page then some 0 else v task a)
  | .zeroed task start stop => update v task (fun a =>
      if start≤a ∧ a<stop then (v task a).map (fun _ => 0) else v task a)
  | .unmapped task start stop => update v task (fun a =>
      if start≤a ∧ a<stop then none else v task a)
  | .loaded task image => update v task image
  | .ended task => update v task (fun _ => none)

def allowed (kind : Access) (flags : BitVec 64) : Bool :=
  hasFlag flags vmmUser &&
    match kind with
    | .read => true
    | .write => hasFlag flags vmmWritable
    | .fetch => !hasFlag flags vmmNoExecute

/-- The page-fault exception of user mode: a fault that was handled restarts the
instruction, any other ends the process. -/
def pageFault (current : Nat) (kind : Access) (address : Nat) (present : Bool)
    (release : Nat → List Nat) (s : Kernel) : Kernel × List Event :=
  match processHandlePageFault current address ⟨present,kind = .write,kind = .fetch⟩ s with
  | (result,s) =>
    if result > 0 then (s, if present then [] else [.filled current (pageFloor address)])
    else if result<0 then
      (processExit current processExitOutOfMemory release s, [.ended current])
    else (processExit current (128+14) release s, [.ended current])

/-- One attempt of user code to touch a byte. No user access to the kernel half succeeds or
is repaired. -/
def userAccess (current : Nat) (kind : Access) (address : Nat) (byte : UInt8)
    (release : Nat → List Nat) (s : Kernel) : Kernel × List Event :=
  match s.findTask current with
  | none => (s, [])
  | some t =>
    if userAddressLimit≤address then
      (processExit current (128+14) release s, [.ended current])
    else
      match vmmSpaceQuery t.space address s.machine with
      | none => pageFault current kind address false release s
      | some (physical,flags) =>
        if !allowed kind flags then pageFault current kind address true release s
        else if kind = .write then
          (s.setMachine (s.machine.writeBytes (physical/4096) (physical%4096) 1
            (fun _ => byte)), [.stored current address [byte]])
        else (s, [])

/-- Only a task that is no zombie acts. -/
def Kernel.runs (s : Kernel) (current : Nat) : Bool :=
  match s.findTask current with
  | none => false
  | some t => !t.zombie

/-- User code runs in a space of its own. -/
def Kernel.runsUser (s : Kernel) (current : Nat) : Bool :=
  match s.findTask current with
  | none => false
  | some t => !t.zombie && t.ownsSpace

/-- The events of a break that was moved. -/
def brkEvents (current requested : Nat) (result : Int) (s : Kernel) : List Event :=
  match s.currentProcess current with
  | none => []
  | some (_,process,_) =>
    if requested=0 ∨ result<0 then []
    else if requested > process.programBreak then [.zeroed current process.programBreak requested]
    else [.unmapped current (alignUpPage requested) (alignUpPage process.programBreak)]

def Kernel.step (s : Kernel) : Op → Kernel × List Event
  | .kernel steps => (s.setMachine (runKernel steps s.machine), [])
  | .kernelTask work => ((taskCreateInSpace work ⟨s.machine.kernelRoot,true⟩ s).2, [])
  | .spawn current work path argument file =>
    if !s.runs current then (s, [])
    else
      let r := processSpawn current work path argument file s
      (r.2, if r.1<0 then [] else [.loaded r.1.toNat (visible r.2 r.1.toNat)])
  | .exec current work file arguments =>
    if !s.runs current then (s, [])
    else
      let r := processExec current work file arguments s
      (r.2, if r.1<0 then [] else [.loaded current (visible r.2 current)])
  | .fork current work vfsForked release =>
    if !s.runs current then (s, [])
    else
      let r := processFork current work vfsForked release s
      (r.2,if r.1<0 then [] else [.forked current r.1.toNat])
  | .exit current status release =>
    if !s.runs current then (s, [])
    else (processExit current status release s, [.ended current])
  | .yield current release =>
    if !s.runs current then (s, []) else (removeZombies current release s, [])
  | .waitpid current pid release =>
    if !s.runs current then (s, []) else ((processWaitpid current pid release s).2, [])
  | .access current kind address byte release =>
    if !s.runsUser current then (s, []) else userAccess current kind address byte release s
  | .copyToUser current address bytes =>
    if !s.runsUser current then (s, [])
    else
      let r := copyToUser current address bytes s
      (r.2.2, [.stored current address (bytes.take r.1)])
  | .brk current requested =>
    if !s.runs current then (s, [])
    else
      let r := processBrk current requested s
      (r.2,brkEvents current requested r.1 s)
  | .mmap current hint length protection flags =>
    if !s.runs current then (s, [])
    else ((processMmap current hint length protection flags s).2, [])
  | .munmap current address length =>
    if !s.runs current then (s, [])
    else
      let r := processMunmap current address length s
      (r.2, if r.1<0 then []
        else [.unmapped current address (address+(roundedMappingLength length).getD 0)])

/-- Every byte that a growing break passes lies in a writable page or in none. -/
def Kernel.growsApart (s : Kernel) : Op → Bool
  | .brk current requested =>
    match s.currentProcess current with
    | none => true
    | some (_,process,space) =>
      (List.range (requested-process.programBreak)).all (fun i =>
        match vmmSpaceQuery space (process.programBreak+i) s.machine with
        | none => true
        | some (_,flags) => hasFlag flags vmmWritable)
  | _ => true

def Kernel.run : List Op → Kernel → Kernel × List Event
  | [], s => (s, [])
  | op :: ops, s =>
    let r := s.step op
    let rest := Kernel.run ops r.1
    (rest.1,r.2 ++ rest.2)

def blankRecord : ProcessRecord :=
  { pid := 0
    ppid := 0
    state := .unused
    exitStatus := 0
    space := none
    heapBase := 0
    programBreak := 0
    committedPages := 0
    mappings := fun _ => ⟨0,0,0,false⟩ }

/-- After `task_init`: the kernel task, and no process yet. -/
def Kernel.boot (m : Machine) : Kernel :=
  { machine := m
    processes := fun _ => blankRecord
    tasks := [⟨0,false,⟨m.kernelRoot,true⟩,false⟩]
    nextTaskId := 1 }

section Sample

/-- A machine of 1100 pages whose first two hold the allocator's tables and whose free pages
hold `fill`; the kernel's tables lie outside it. -/
def sampleMachine (fill : BitVec 64) : Machine :=
  { mem := fun page _ => if page=2000 then 0 else fill
    pmm :=
      { bitmap := fun page => decide (page<2 ∨ 1100≤page)
        pageReferences := fun _ => 0
        bitmapPhysical := 0
        bitmapPageCount := 1
        referencesPhysical := 4096
        referencesPageCount := 1
        pageCount := 1100
        freePages := 1098
        searchStart := 2
        memoryMap := [⟨0,1100*4096,.usable⟩] }
    kernelRoot := 2000*4096
    kernelPages := fun _ => false }

def littleEndian (value : Nat) : Nat → List UInt8
  | 0 => []
  | count+1 => UInt8.ofNat value :: littleEndian (value/256) count

/-- One executable page at 0x400000 that begins with a jump to itself. -/
def sampleElf : List UInt8 :=
  [0x7F,0x45,0x4C,0x46,2,1,1,0,0,0,0,0,0,0,0,0] ++
    littleEndian 2 2 ++ littleEndian 62 2 ++ littleEndian 1 4 ++ littleEndian 0x400000 8 ++
    littleEndian 64 8 ++ littleEndian 0 8 ++ littleEndian 0 4 ++ littleEndian 64 2 ++
    littleEndian 56 2 ++ littleEndian 1 2 ++ littleEndian 0 6 ++
    littleEndian 1 4 ++ littleEndian 5 4 ++ littleEndian 120 8 ++ littleEndian 0x400000 8 ++
    littleEndian 0 8 ++ littleEndian 2 8 ++ littleEndian 3 8 ++ littleEndian 4096 8 ++ [0xEB,0xFE]

def idleWork : KernelWork := ⟨true,[]⟩

def idleLaunch : LaunchWork := ⟨idleWork,idleWork,idleWork⟩

end Sample

/-- Every step of a run meets a condition on the state it starts from. -/
def Kernel.Along (P : Kernel → Op → Prop) : List Op → Kernel → Prop
  | [], _ => True
  | op :: ops, s => P s op ∧ Kernel.Along P ops (s.step op).1

def Kernel.decidableAlong (P : Kernel → Op → Prop) [∀ s op, Decidable (P s op)] :
    (ops : List Op) → (s : Kernel) → Decidable (Kernel.Along P ops s)
  | [], _ => .isTrue trivial
  | op :: ops, s =>
    have := Kernel.decidableAlong P ops (s.step op).1
    inferInstanceAs (Decidable (_ ∧ _))

instance (P : Kernel → Op → Prop) [∀ s op, Decidable (P s op)] (ops : List Op) (s : Kernel) :
    Decidable (Kernel.Along P ops s) := Kernel.decidableAlong P ops s

end ConeOS.Process
