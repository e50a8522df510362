import ConeOS.Library.Reading
import Mathlib.Algebra.GroupWithZero.Nat
import Mathlib.Logic.Function.Basic

namespace ConeOS.Firmware

open ConeOS.Library ConeOS.Library.Reading

def acpiMaxCpus : Nat := 64
def acpiMaxIoapics : Nat := 8
def acpiMaxNmis : Nat := 64

structure AcpiCpu where
  uid : Nat
  apicId : Nat
  flags : Nat
  deriving DecidableEq, Repr

structure AcpiIoapic where
  address : Nat
  gsiBase : Nat
  id : Nat
  deriving DecidableEq, Repr

structure AcpiIsaIrq where
  gsi : Nat
  flags : Nat
  overridden : Bool
  deriving DecidableEq, Repr

structure AcpiLocalNmi where
  uid : Nat
  flags : Nat
  lint : Nat
  allCpus : Bool
  deriving DecidableEq, Repr

structure AcpiIoNmi where
  gsi : Nat
  flags : Nat
  deriving DecidableEq, Repr

/-- `struct acpi_topology`; each count is the length of its list. -/
structure AcpiTopology where
  lapicAddress : Nat
  flags : Nat
  cpus : List AcpiCpu
  ioapics : List AcpiIoapic
  isaIrqs : Nat → AcpiIsaIrq
  localNmis : List AcpiLocalNmi
  ioNmis : List AcpiIoNmi

def read16 (p : Nat) : Reading Nat := do
  let low ← byte p
  let high ← byte (p+1)
  pure (low.toNat+high.toNat*2 ^ 8)

def read32 (p : Nat) : Reading Nat := do
  let low ← read16 p
  let high ← read16 (p+2)
  pure (low+high*2 ^ 16)

def read64 (p : Nat) : Reading Nat := do
  let low ← read32 p
  let high ← read32 (p+4)
  pure (low+high*2 ^ 32)

/-- The summing loop of `acpi_checksum_valid`, `count` bytes from `offset` on. -/
def addBytes : Nat → Nat → UInt8 → Reading UInt8
  | 0, _, sum => pure sum
  | count+1, offset, sum => do
    let b ← byte offset
    addBytes count (offset+1) (sum+b)

def acpiChecksumValid (length : Nat) : Reading Bool := do
  let sum ← addBytes length 0 0
  pure (sum == 0)

def acpiInterruptFlagsValid (flags : Nat) : Bool :=
  decide (flags<16) && flags%4 != 2 && flags/4%4 != 2

/-- What the loop over the records changes: the topology, and whether an address override
was seen. -/
structure ParseState where
  topology : AcpiTopology
  addressOverride : Bool

section Records

variable (p size : Nat) (s : ParseState)

def addCpu (uid id flags : Nat) (t : AcpiTopology) : Option AcpiTopology :=
  if t.cpus.length=acpiMaxCpus then none
  else if t.cpus.any (fun c => c.apicId == id || c.uid == uid) then none
  else some { t with cpus := t.cpus ++ [⟨uid,id,flags⟩] }

def ParseState.withCpu (uid id flags : Nat) : Option ParseState :=
  (addCpu uid id flags s.topology).map (fun t => { s with topology := t })

/-- Type 0. -/
def parseLapic : Reading (Option ParseState) :=
  if size<8 then pure none
  else do
    let uid ← byte (p+2)
    let id ← byte (p+3)
    let flags ← read32 (p+4)
    pure (s.withCpu uid.toNat id.toNat flags)

def addIoapic (address gsiBase id : Nat) : Option ParseState :=
  if address=0 ∨ address%4096≠0 then none
  else if s.topology.ioapics.any (fun a => a.id == id || a.address == address) then none
  else
    some { s with
      topology :=
        { s.topology with ioapics := s.topology.ioapics ++ [⟨address,gsiBase,id⟩] } }

/-- Type 1. -/
def parseIoapic : Reading (Option ParseState) :=
  if size<12 ∨ s.topology.ioapics.length=acpiMaxIoapics then pure none
  else do
    let address ← read32 (p+4)
    let id ← byte (p+2)
    let gsiBase ← read32 (p+8)
    pure (addIoapic s address gsiBase id.toNat)

def addOverride (bus irq gsi flags : Nat) : Option ParseState :=
  if bus≠0 ∨ 16 ≤ irq ∨ !acpiInterruptFlagsValid flags then none
  else if (s.topology.isaIrqs irq).overridden then none
  else
    some { s with
      topology :=
        { s.topology with
          isaIrqs := Function.update s.topology.isaIrqs irq ⟨gsi,flags,true⟩ } }

/-- Type 2. -/
def parseOverride : Reading (Option ParseState) :=
  if size<10 then pure none
  else do
    let bus ← byte (p+2)
    let irq ← byte (p+3)
    let flags ← read16 (p+8)
    let gsi ← read32 (p+4)
    pure (addOverride s bus.toNat irq.toNat gsi flags)

def addIoNmi (gsi flags : Nat) : Option ParseState :=
  if !acpiInterruptFlagsValid flags then none
  else
    some { s with
      topology := { s.topology with ioNmis := s.topology.ioNmis ++ [⟨gsi,flags⟩] } }

/-- Type 3. -/
def parseIoNmi : Reading (Option ParseState) :=
  if size<8 ∨ s.topology.ioNmis.length=acpiMaxNmis then pure none
  else do
    let flags ← read16 (p+2)
    let gsi ← read32 (p+4)
    pure (addIoNmi s gsi flags)

def addLocalNmi (uid flags lint : Nat) (allCpus : Bool) : Option ParseState :=
  if 1<lint ∨ !acpiInterruptFlagsValid flags then none
  else
    some { s with
      topology :=
        { s.topology with localNmis := s.topology.localNmis ++ [⟨uid,flags,lint,allCpus⟩] } }

/-- Type 4. -/
def parseLocalNmi : Reading (Option ParseState) :=
  if size<6 ∨ s.topology.localNmis.length=acpiMaxNmis then pure none
  else do
    let lint ← byte (p+5)
    let flags ← read16 (p+3)
    let uid ← byte (p+2)
    pure (addLocalNmi s uid.toNat flags lint.toNat (uid == 255))

def ParseState.withAddress (address : Nat) : ParseState :=
  ⟨{ s.topology with lapicAddress := address },true⟩

/-- Type 5. -/
def parseAddressOverride : Reading (Option ParseState) :=
  if size<12 ∨ s.addressOverride then pure none
  else do
    let address ← read64 (p+4)
    pure (some (s.withAddress address))

/-- Type 9. -/
def parseX2apic : Reading (Option ParseState) :=
  if size<16 then pure none
  else do
    let uid ← read32 (p+12)
    let id ← read32 (p+4)
    let flags ← read32 (p+8)
    pure (s.withCpu uid id flags)

/-- Type 10. -/
def parseX2apicNmi : Reading (Option ParseState) :=
  if size<12 ∨ s.topology.localNmis.length=acpiMaxNmis then pure none
  else do
    let lint ← byte (p+8)
    let flags ← read16 (p+2)
    let uid ← read32 (p+4)
    pure (addLocalNmi s uid flags lint.toNat (uid == 2 ^ 32-1))

/-- The switch of `acpi_parse_madt` on the type of the record at `p`. -/
def parseRecord : Reading (Option ParseState) := do
  let type ← byte p
  if type=0 then parseLapic p size s
  else if type=1 then parseIoapic p size s
  else if type=2 then parseOverride p size s
  else if type=3 then parseIoNmi p size s
  else if type=4 then parseLocalNmi p size s
  else if type=5 then parseAddressOverride p size s
  else if type=9 then parseX2apic p size s
  else if type=10 then parseX2apicNmi p size s
  else pure (some s)

end Records

/-- The record loop; `none` is one of its early returns. -/
def parseRecords (bytes : Nat → UInt8) (length offset : Nat) (s : ParseState) :
    Option ParseState × List Nat :=
  if offset<length then
    if length-offset<2 then (none, [])
    else
      let size := (bytes (offset+1)).toNat
      if size<2 ∨ length-offset<size then (none, [offset+1])
      else
        match parseRecord offset size s bytes with
        | (none,reads) => (none, (offset+1) :: reads)
        | (some s,reads) =>
          let rest := parseRecords bytes length (offset+size) s
          (rest.1, (offset+1) :: reads ++ rest.2)
  else (some s, [])
termination_by length-offset
decreasing_by omega

/-- The topology before the first record. -/
def startTopology (lapicAddress flags : Nat) : AcpiTopology :=
  { lapicAddress := lapicAddress
    flags := flags
    cpus := []
    ioapics := []
    isaIrqs := fun i => ⟨i,0,false⟩
    localNmis := []
    ioNmis := [] }

def lapicAddressValid (address : Nat) : Bool :=
  address != 0 && address%4096 == 0 && decide (address<2 ^ 52)

/-- The last test of `acpi_parse_madt`. -/
def finish (s : ParseState) : Option AcpiTopology :=
  if s.topology.cpus.length≠0 ∧ s.topology.ioapics.length≠0 ∧
      lapicAddressValid s.topology.lapicAddress then some s.topology
  else none

/-- The four signature tests, each made only after the ones before it passed. -/
def signatureValid : Reading Bool := do
  let b0 ← byte 0
  if b0≠0x41 then pure false
  else do
    let b1 ← byte 1
    if b1≠0x50 then pure false
    else do
      let b2 ← byte 2
      if b2≠0x49 then pure false
      else do
        let b3 ← byte 3
        pure (b3 == 0x43)

/-- `acpi_parse_madt` on a table of which `available` bytes can be read; the topology stands
for the return value 1. -/
def acpiParseMadt (available : Nat) : Reading (Option AcpiTopology) :=
  if available<44 then pure none
  else do
    let length ← read32 4
    let signature ← signatureValid
    if signature=false ∨ length<44 ∨ available<length then pure none
    else do
      let checksum ← acpiChecksumValid length
      if checksum=false then pure none
      else do
        let lapicAddress ← read32 36
        let flags ← read32 40
        let records ←
          (fun bytes => parseRecords bytes length 44 ⟨startTopology lapicAddress flags,false⟩ :
            Reading (Option ParseState))
        pure (records.bind finish)

end ConeOS.Firmware
