import ConeOS.Library.Reading
import ConeOS.Memory.PageTable

namespace ConeOS.Process

open ConeOS.Library ConeOS.Library.Reading ConeOS.Memory

def userAddressLimit : Nat := 0x0000800000000000
def userStackAddress : Nat := 0x0000000000800000
def processMaxArguments : Nat := 16
def processMemoryLimitPages : Nat := 16*1024*1024/4096

/-- The image as the loader reads it. -/
def imageBytes (image : List UInt8) : Nat → UInt8 := fun i => image.getD i 0

/-- A little-endian number of `count` bytes. -/
def readNumber (offset count : Nat) : Reading Nat := do
  let bytes ← block offset count
  pure (bytes.foldr (fun b rest => b.toNat+256*rest) 0)

structure Elf64Header where
  ident : List UInt8
  type : Nat
  machine : Nat
  version : Nat
  entry : Nat
  programOffset : Nat
  programEntrySize : Nat
  programCount : Nat

structure Elf64ProgramHeader where
  type : Nat
  flags : Nat
  offset : Nat
  virtualAddress : Nat
  fileSize : Nat
  memorySize : Nat

def readHeader : Reading Elf64Header := do
  let ident ← block 0 16
  let type ← readNumber 16 2
  let machine ← readNumber 18 2
  let version ← readNumber 20 4
  let entry ← readNumber 24 8
  let programOffset ← readNumber 32 8
  let programEntrySize ← readNumber 54 2
  let programCount ← readNumber 56 2
  pure ⟨ident,type,machine,version,entry,programOffset,programEntrySize,programCount⟩

def readProgramHeader (base : Nat) : Reading Elf64ProgramHeader := do
  let type ← readNumber base 4
  let flags ← readNumber (base+4) 4
  let offset ← readNumber (base+8) 8
  let virtualAddress ← readNumber (base+16) 8
  let fileSize ← readNumber (base+32) 8
  let memorySize ← readNumber (base+40) 8
  pure ⟨type,flags,offset,virtualAddress,fileSize,memorySize⟩

def Elf64Header.read (image : List UInt8) : Elf64Header := readHeader.value (imageBytes image)

def Elf64ProgramHeader.read (image : List UInt8) (base : Nat) : Elf64ProgramHeader :=
  (readProgramHeader base).value (imageBytes image)

/-- `ELF_LOAD_INVALID` and `ELF_LOAD_OUT_OF_MEMORY`. -/
inductive LoadError
  | invalid
  | outOfMemory
  deriving DecidableEq, Repr

def pageFloor (value : Nat) : Nat := value/4096*4096

def rangeValid (start size limit : Nat) : Bool :=
  decide (start≤limit) && decide (size≤limit-start)

def executable (program : Elf64ProgramHeader) : Bool := program.flags.testBit 0

def writable (program : Elf64ProgramHeader) : Bool := program.flags.testBit 1

section Load

/-- The loop of `load_segment` that maps `count` zeroed pages from `page` on. -/
def mapSegment (space : VmmSpace) (flags : BitVec 64) :
    Nat → Nat → Machine → Option LoadError × Machine
  | 0, _, m => (none,m)
  | count+1, page, m =>
    if (vmmSpaceTranslate space page m).isSome then (some .invalid,m)
    else
      match m.allocUserPage with
      | (none,m) => (some .outOfMemory,m)
      | (some physical,m) =>
        match mapPageLocked space page (physical*4096) flags (m.clearPage physical) with
        | (true,m) => mapSegment space flags count (page+4096) m
        | (false,m) => (some .outOfMemory,m.freePage physical)

/-- The copying loop of `load_segment`; every round copies at least one byte, so the file
size bounds their number. -/
def copySegmentReads (program : Elf64ProgramHeader) (space : VmmSpace) :
    Nat → Nat → Machine → Reading (Option LoadError × Machine)
  | 0, _, m => pure (none,m)
  | rounds+1, copied, m =>
    if program.fileSize≤copied then pure (none,m)
    else
      let address := program.virtualAddress+copied
      match vmmSpaceTranslate space address m with
      | none => pure (some .invalid,m)
      | some physical => do
        let chunk := min (4096-address%4096) (program.fileSize-copied)
        let bytes ← block (program.offset+copied) chunk
        copySegmentReads program space rounds (copied+chunk)
          (m.writeBytes (physical/4096) (physical%4096) chunk (fun i => bytes.getD i 0))

def copySegment (image : List UInt8) (program : Elf64ProgramHeader) (space : VmmSpace)
    (rounds copied : Nat) (m : Machine) : Option LoadError × Machine :=
  (copySegmentReads program space rounds copied m).value (imageBytes image)

def segmentFlags (program : Elf64ProgramHeader) : BitVec 64 :=
  let flags := vmmUser
  let flags := if writable program then flags ||| vmmWritable else flags
  if !executable program then flags ||| vmmNoExecute else flags

def segmentPages (program : Elf64ProgramHeader) : Nat :=
  if program.memorySize=0 then 0
  else
    (program.virtualAddress+program.memorySize-1-pageFloor program.virtualAddress)/4096+1

/-- `load_segment` for an image of `size` bytes. -/
def loadSegmentReads (size : Nat) (program : Elf64ProgramHeader) (space : VmmSpace)
    (m : Machine) : Reading (Option LoadError × Machine) :=
  if program.fileSize > program.memorySize || !rangeValid program.offset program.fileSize size ||
      !rangeValid program.virtualAddress program.memorySize userAddressLimit ||
      (writable program && executable program) then pure (some .invalid,m)
  else if program.memorySize=0 then pure (none,m)
  else
    let start := pageFloor program.virtualAddress
    let stop := program.virtualAddress+program.memorySize
    match mapSegment space (segmentFlags program) ((stop-start+4095)/4096) start m with
    | (some e,m) => pure (some e,m)
    | (none,m) => copySegmentReads program space program.fileSize 0 m

def loadSegment (image : List UInt8) (program : Elf64ProgramHeader) (space : VmmSpace)
    (m : Machine) : Option LoadError × Machine :=
  (loadSegmentReads image.length program space m).value (imageBytes image)

def headerValid (size : Nat) (header : Elf64Header) : Bool :=
  header.ident.take 7 == [0x7F,0x45,0x4C,0x46,2,1,1] && header.type == 2 &&
    header.machine == 62 && header.version == 1 && header.programEntrySize == 56 &&
    header.programCount != 0 &&
    rangeValid header.programOffset (header.programCount*header.programEntrySize) size &&
    decide (header.entry<userAddressLimit)

/-- What the program loop of `elf_load` has seen so far. -/
structure LoadState where
  entryIsExecutable : Bool
  highestEnd : Nat
  totalPages : Nat

def LoadState.add (header : Elf64Header) (program : Elf64ProgramHeader) (l : LoadState) :
    LoadState :=
  let segmentEnd := program.virtualAddress+program.memorySize
  { entryIsExecutable := l.entryIsExecutable ||
      (executable program && decide (program.virtualAddress≤header.entry) &&
        decide (header.entry-program.virtualAddress<program.memorySize))
    highestEnd := if segmentEnd > l.highestEnd then segmentEnd else l.highestEnd
    totalPages := l.totalPages+segmentPages program }

/-- The program loop of `elf_load`; `bases` are where the headers stand. -/
def loadProgramsReads (size : Nat) (header : Elf64Header) (space : VmmSpace) (pageLimit : Nat) :
    List Nat → LoadState → Machine → Reading (Except LoadError LoadState × Machine)
  | [], l, m => pure (.ok l,m)
  | base :: rest, l, m => do
    let program ← readProgramHeader base
    if program.type≠1 then loadProgramsReads size header space pageLimit rest l m
    else if !rangeValid program.virtualAddress program.memorySize userAddressLimit then
      pure (.error .invalid,m)
    else if segmentPages program > pageLimit-l.totalPages then pure (.error .outOfMemory,m)
    else do
      let result ← loadSegmentReads size program space m
      match result with
      | (some e,m) => pure (.error e,m)
      | (none,m) =>
        loadProgramsReads size header space pageLimit rest (l.add header program) m

structure ElfImage where
  entryPoint : Nat
  imageEnd : Nat
  mappedPages : Nat

/-- `elf_load` for an image of `size` bytes, with its reads. -/
def elfLoadReads (size : Nat) (space : VmmSpace) (pageLimit : Nat) (m : Machine) :
    Reading (Except LoadError ElfImage × Machine) :=
  if size<64 then pure (.error .invalid,m)
  else do
    let header ← readHeader
    if !headerValid size header then pure (.error .invalid,m)
    else do
      let result ← loadProgramsReads size header space pageLimit
        ((List.range header.programCount).map (fun i => header.programOffset+i*56))
        ⟨false,0,0⟩ m
      match result with
      | (.error e,m) => pure (.error e,m)
      | (.ok l,m) =>
        if !l.entryIsExecutable || decide (userStackAddress-4096≤l.highestEnd) then
          pure (.error .invalid,m)
        else pure (.ok ⟨header.entry,l.highestEnd,l.totalPages⟩,m)

def elfLoad (image : List UInt8) (space : VmmSpace) (pageLimit : Nat) (m : Machine) :
    Except LoadError ElfImage × Machine :=
  (elfLoadReads image.length space pageLimit m).value (imageBytes image)

end Load

section Stack

/-- The loop that puts the argument strings on the stack page, last argument first: the
new cursor and the user addresses of the strings. -/
def placeArguments (stack : Nat) :
    List (List UInt8) → Nat → List Nat → Machine → Option (Nat × List Nat) × Machine
  | [], cursor, pointers, m => (some (cursor,pointers), m)
  | argument :: rest, cursor, pointers, m =>
    let length := min argument.length 4096
    if length=4096 ∨ length+1 > cursor then (none,m)
    else
      placeArguments stack rest (cursor-(length+1))
        ((userStackAddress+(cursor-(length+1))) :: pointers)
        (m.writeBytes stack (cursor-(length+1)) (length+1) (fun i => argument.getD i 0))

/-- `user_argv[i] = user_arguments[i]`, then the terminating null. -/
def placeVector (stack : Nat) : List Nat → Nat → Machine → Machine
  | [], word, m => m.setEntry stack word 0
  | pointer :: rest, word, m =>
    placeVector stack rest (word+1) (m.setEntry stack word (BitVec.ofNat 64 pointer))

/-- The arguments on the stack page; the result is the stack pointer's offset. -/
def buildStack (stack : Nat) (arguments : List (List UInt8)) (m : Machine) :
    Option Nat × Machine :=
  match placeArguments stack arguments.reverse 4096 [] m with
  | (none,m) => (none,m)
  | (some (cursor,pointers), m) =>
    let cursor := cursor/8*8
    let argvBytes := (arguments.length+1)*8
    if argvBytes > cursor then (none,m)
    else
      (some (cursor-argvBytes), placeVector stack pointers ((cursor-argvBytes)/8) m)

structure ProcessImage where
  space : VmmSpace
  entry : Nat
  heapBase : Nat
  stackPointer : Nat
  argc : Nat
  argv : Nat
  committedPages : Nat

def alignUpPage (address : Nat) : Nat := (address+4095)/4096*4096

/-- `create_process_image` once the space exists and the file is read; `space` is destroyed
by the caller when this fails. -/
def fillImage (space : VmmSpace) (file : List UInt8) (arguments : List (List UInt8))
    (m : Machine) : Except LoadError ProcessImage × Machine :=
  match elfLoad file space (processMemoryLimitPages-1) m with
  | (.error e,m) => (.error e,m)
  | (.ok elf,m) =>
    match m.allocUserPage with
    | (none,m) => (.error .outOfMemory,m)
    | (some stack,m) =>
      match mapPageLocked space userStackAddress (stack*4096)
          (vmmUser ||| vmmWritable ||| vmmNoExecute) m with
      | (false,m) => (.error .outOfMemory,m.freePage stack)
      | (true,m) =>
        match buildStack stack arguments m with
        | (none,m) => (.error .invalid,m)
        | (some cursor,m) =>
          (.ok
            { space := space
              entry := elf.entryPoint
              heapBase := alignUpPage elf.imageEnd
              stackPointer := userStackAddress+cursor
              argc := arguments.length
              argv := userStackAddress+cursor
              committedPages := elf.mappedPages+1 }, m)

/-- `file` is what `ramfs_read` found under the path. -/
def createProcessImage (work : KernelWork) (file : Option (List UInt8))
    (arguments : List (List UInt8)) (m : Machine) : Except LoadError ProcessImage × Machine :=
  if arguments.length > processMaxArguments then (.error .invalid,m)
  else
    match vmmSpaceCreate work m with
    | (none,m) => (.error .outOfMemory,m)
    | (some space,m) =>
      match file with
      | none => (.error .invalid,vmmSpaceDestroy space m)
      | some file =>
        match fillImage space file arguments m with
        | (.error e,m) => (.error e,vmmSpaceDestroy space m)
        | (.ok image,m) => (.ok image,m)

end Stack

end ConeOS.Process
