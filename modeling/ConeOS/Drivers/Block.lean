import ConeOS.Library.Bytes
import Mathlib.Logic.Function.Basic

namespace ConeOS.Drivers

open ConeOS.Library Function

def virtqSize : Nat := 8
def virtqDescNext : Nat := 1
def virtqDescWrite : Nat := 2
def virtioBlkFFlush : Nat := 9
def virtioBlkTFlush : Nat := 4
def pollLimit : Nat := 10000000

structure VirtqDesc where
  address : Nat
  length : Nat
  flags : Nat
  next : Nat

def VirtqDesc.hasNext (d : VirtqDesc) : Bool := d.flags.testBit 0

def VirtqDesc.isWritable (d : VirtqDesc) : Bool := d.flags.testBit 1

/-- The contents of a sector. -/
abbrev SectorData := { d : List UInt8 // d.length=512 }

def loadSector (address : Nat) (m : ByteMemory) : SectorData := ⟨load address 512 m,load_length⟩

/-- A device that follows the legacy protocol: the next place it looks at in the available
ring, and the sectors. -/
structure Device where
  lastAvailable : Nat
  disk : Nat → SectorData

/-- The static state of block.c once `block_init` has run, the memory it shares with the
device, and the device. -/
structure Block where
  initialized : Bool
  flushSupported : Bool
  sectors : Nat
  queueSize : Nat
  requestPhysical : Nat
  descriptors : Nat → VirtqDesc
  available : Nat → Nat
  used : Nat → Nat
  memory : ByteMemory
  device : Device

section Device

/-- The descriptors of a request, from its head on. -/
def chainFrom (descriptors : Nat → VirtqDesc) : Nat → Nat → List VirtqDesc
  | 0, _ => []
  | fuel+1, i =>
    let d := descriptors i
    d :: if d.hasNext then chainFrom descriptors fuel d.next else []

/-- One request: the header says what to do, the last descriptor is where the status goes. -/
def serve (chain : List VirtqDesc) (m : ByteMemory) (disk : Nat → SectorData) :
    ByteMemory × (Nat → SectorData) :=
  match chain with
  | [header,data,status] =>
    let type := ofLittleEndian (load header.address 4 m)
    let sector := ofLittleEndian (load (header.address+8) 8 m)
    if type=0 ∧ data.isWritable ∧ data.length=512 then
      (store status.address [0] (store data.address (disk sector).1 m), disk)
    else if type=1 ∧ !data.isWritable ∧ data.length=512 then
      (store status.address [0] m, update disk sector (loadSector data.address m))
    else (store status.address [1] m,disk)
  | [header,status] =>
    if ofLittleEndian (load header.address 4 m)=virtioBlkTFlush then
      (store status.address [0] m,disk)
    else (store status.address [1] m,disk)
  | _ => (m,disk)

/-- The device takes the next published request, if there is one, and completes it. -/
def Block.complete (b : Block) : Block :=
  if b.device.lastAvailable=b.available 1 then b
  else
    let head := b.available (2+b.device.lastAvailable%b.queueSize)
    let served := serve (chainFrom b.descriptors b.queueSize head) b.memory b.device.disk
    { b with
      memory := served.1
      device := ⟨(b.device.lastAvailable+1)%2 ^ 16,served.2⟩
      used := update b.used 1 ((b.used 1+1)%2 ^ 16) }

end Device

section Driver

/-- The polling loop: the device completes the request before the poll number `delay`. The
comparison is made on integers, so `target` is not taken modulo 2^16. -/
def pollUsed (target delay : Nat) : Nat → Nat → Block → Bool × Block
  | 0, _, b => (false,b)
  | rounds+1, wait, b =>
    let b := if wait=delay then b.complete else b
    if b.used 1≠target then pollUsed target delay rounds (wait+1) b else (true,b)

def setDescriptor (i : Nat) (d : VirtqDesc) (b : Block) : Block :=
  { b with descriptors := update b.descriptors i d }

def storeBytes (address : Nat) (bytes : List UInt8) (b : Block) : Block :=
  { b with memory := store address bytes b.memory }

section Fields

variable (i address : Nat) (d : VirtqDesc) (bytes : List UInt8) (b : Block)

@[simp] theorem setDescriptor_memory : (setDescriptor i d b).memory=b.memory := rfl

@[simp] theorem setDescriptor_queueSize : (setDescriptor i d b).queueSize=b.queueSize := rfl

@[simp] theorem setDescriptor_requestPhysical :
    (setDescriptor i d b).requestPhysical=b.requestPhysical := rfl

@[simp] theorem setDescriptor_sectors : (setDescriptor i d b).sectors=b.sectors := rfl

@[simp] theorem setDescriptor_device : (setDescriptor i d b).device=b.device := rfl

@[simp] theorem storeBytes_memory :
    (storeBytes address bytes b).memory=store address bytes b.memory := rfl

@[simp] theorem storeBytes_queueSize : (storeBytes address bytes b).queueSize=b.queueSize := rfl

@[simp] theorem storeBytes_requestPhysical :
    (storeBytes address bytes b).requestPhysical=b.requestPhysical := rfl

@[simp] theorem storeBytes_sectors : (storeBytes address bytes b).sectors=b.sectors := rfl

@[simp] theorem storeBytes_device : (storeBytes address bytes b).device=b.device := rfl

end Fields

/-- The three fields of the request header. -/
def writeHeader (type sector : Nat) (b : Block) : Block :=
  let p := b.requestPhysical
  storeBytes (p+8) (toLittleEndian 8 sector)
    (storeBytes (p+4) (toLittleEndian 4 0) (storeBytes p (toLittleEndian 4 type) b))

/-- The request goes into the available ring; the slot is taken modulo the driver's own
constant. -/
def publish (index : Nat) (b : Block) : Block :=
  { b with
    available := update
      (update b.available (2+index%virtqSize) 0) 1 ((index+1)%2 ^ 16) }

/-- From the header on: what both kinds of request do with the queue. The result is the
return value. -/
def submit (statusOffset delay : Nat) (b : Block) : Bool × Block :=
  let index := b.available 1
  let polled := pollUsed (index+1) delay pollLimit 0 (publish index b)
  (polled.1 && polled.2.memory (b.requestPhysical+statusOffset) == 0, polled.2)

/-- The request page and the descriptors of a transfer, up to the publication. -/
def prepareTransfer (sector : Nat) (write : Option SectorData) (b : Block) : Block :=
  let p := b.requestPhysical
  let b := writeHeader (if write.isSome then 1 else 0) sector b
  let b := match write with
    | none => b
    | some buffer => storeBytes (p+16) buffer.1 b
  let b := storeBytes (p+528) [0xFF] b
  let b := setDescriptor 0 ⟨p,16,virtqDescNext,1⟩ b
  let b := setDescriptor 1
    ⟨p+16,512,virtqDescNext ||| (if write.isSome then 0 else virtqDescWrite),2⟩ b
  setDescriptor 2 ⟨p+528,1,virtqDescWrite,0⟩ b

/-- `transfer` up to the copy of what was read; a write carries its sector. -/
def transfer (sector : Nat) (write : Option SectorData) (delay : Nat) (b : Block) :
    Bool × Block :=
  if !b.initialized || decide (b.sectors ≤ sector) then (false,b)
  else submit 528 delay (prepareTransfer sector write b)

/-- The sector on success. -/
def blockReadSector (sector delay : Nat) (b : Block) : Option SectorData × Block :=
  match transfer sector none delay b with
  | (true,b) => (some (loadSector (b.requestPhysical+16) b.memory), b)
  | (false,b) => (none,b)

def blockWriteSector (sector : Nat) (buffer : SectorData) (delay : Nat) (b : Block) :
    Bool × Block :=
  transfer sector (some buffer) delay b

def prepareFlush (b : Block) : Block :=
  let p := b.requestPhysical
  let b := writeHeader virtioBlkTFlush 0 b
  let b := storeBytes (p+16) [0xFF] b
  let b := setDescriptor 0 ⟨p,16,virtqDescNext,1⟩ b
  setDescriptor 1 ⟨p+16,1,virtqDescWrite,0⟩ b

def blockFlush (delay : Nat) (b : Block) : Bool × Block :=
  if !b.initialized then (false,b)
  else if !b.flushSupported then (false,b)
  else submit 16 delay (prepareFlush b)

end Driver

/-- `block_init` once a device has been found and the pages have been allocated; the arguments
are what the device's ports read. -/
def blockInit (hostFeatures : UInt32) (queueSize : UInt16) (sectorsLow sectorsHigh : UInt32)
    (requestPhysical : Nat) (memory : ByteMemory) (disk : Nat → SectorData) : Option Block :=
  if queueSize.toNat<virtqSize ∨ 256<queueSize.toNat then none
  else
    some
      { initialized := true
        flushSupported := hostFeatures.toNat.testBit virtioBlkFFlush
        sectors := sectorsLow.toNat+2 ^ 32*sectorsHigh.toNat
        queueSize := queueSize.toNat
        requestPhysical := requestPhysical
        descriptors := fun _ => ⟨0,0,0,0⟩
        available := fun _ => 0
        used := fun _ => 0
        memory := store requestPhysical (List.replicate 4096 0) memory
        device := ⟨0,disk⟩ }

/-- A call, with the number of polls its request takes. -/
inductive BlockCall
  | read (sector delay : Nat)
  | write (sector : Nat) (buffer : SectorData) (delay : Nat)
  | flush (delay : Nat)

/-- The return value, and what a read delivers. -/
structure CallResult where
  ok : Bool
  data : Option SectorData
  deriving DecidableEq

def BlockCall.run (b : Block) : BlockCall → CallResult × Block
  | .read sector delay =>
    let r := blockReadSector sector delay b
    (⟨r.1.isSome,r.1⟩,r.2)
  | .write sector buffer delay =>
    let r := blockWriteSector sector buffer delay b
    (⟨r.1,none⟩,r.2)
  | .flush delay =>
    let r := blockFlush delay b
    (⟨r.1,none⟩,r.2)

def runCalls : List BlockCall → Block → List CallResult × Block
  | [], b => ([],b)
  | c :: cs, b =>
    let r := c.run b
    let rest := runCalls cs r.2
    (r.1 :: rest.1, rest.2)

end ConeOS.Drivers
