import ConeOS.Fat32.Utf8
import ConeOS.Fat32.Volume

namespace ConeOS.Fat32

open ConeOS.Library
open ConeOS.Vfs (dot)

/-- A string without its terminator. -/
abbrev Name := List UInt8

section ShortNames

def upper (c : UInt8) : UInt8 := if 97≤c.toNat ∧ c.toNat≤122 then c-32 else c

def lower (c : UInt8) : UInt8 := if 65≤c.toNat ∧ c.toNat≤90 then c+32 else c

/-- The loop of `short_name`: the field, the place of the next character and whether the dot was
met. -/
def shortNameLoop : Name → ByteMemory → Nat → Bool → Option (ByteMemory × Nat × Bool)
  | [], result, target, extension => some (result,target,extension)
  | c :: name, result, target, extension =>
    if c=dot then
      if extension ∨ target=0 then none else shortNameLoop name result 8 true
    else if extension ∧ 11≤target ∨ ¬ extension ∧ 8≤target then none
    else if (upper c).toNat<33 ∨ 126<(upper c).toNat ∨ (upper c).toNat=47 ∨
        (upper c).toNat=92 then none
    else shortNameLoop name (Function.update result target (upper c)) (target+1) extension

def shortName (name : Name) : Option ByteMemory :=
  if name=[] then none
  else
    match shortNameLoop name (fun _ => space) 0 false with
    | none => none
    | some (result,target,extension) => if extension ∧ target=8 then none else some result

/-- The eleven bytes of a short name are the same. -/
def sameShort (a b : ByteMemory) : Bool := (List.range 11).all (fun i => a i == b i)

def pathNameEqual : Name → Name → Bool
  | a :: left, b :: right => lower a == lower b && pathNameEqual left right
  | [], [] => true
  | _, _ => false

def lfnChecksum (short : ByteMemory) : Nat :=
  (List.range 11).foldl (fun sum i =>
    ((if sum%2=1 then 0x80 else 0)+sum/2+(short i).toNat)%256) 0

/-- The characters of a field up to the first space. -/
def fieldText (short : ByteMemory) (first count : Nat) : Name :=
  ((List.range count).map (fun i => short (first+i))).takeWhile (· ≠ space)

/-- A short name as it is shown. -/
def shortText (short : ByteMemory) : Name :=
  fieldText short 0 8 ++ if short 8≠space then dot :: fieldText short 8 3 else []

def canonicalShortName (name : Name) (short : ByteMemory) : Bool := name == shortText short

end ShortNames

section LongNames

/-- The UTF-8 bytes of a code point. -/
def utf8Bytes (codepoint : Nat) : List UInt8 :=
  if codepoint<0x80 then [UInt8.ofNat codepoint]
  else if codepoint<0x800 then
    [UInt8.ofNat (0xC0 ||| codepoint >>> 6),UInt8.ofNat (0x80 ||| (codepoint &&& 0x3F))]
  else if codepoint<0x10000 then
    [UInt8.ofNat (0xE0 ||| codepoint >>> 12),UInt8.ofNat (0x80 ||| (codepoint >>> 6 &&& 0x3F)),
      UInt8.ofNat (0x80 ||| (codepoint &&& 0x3F))]
  else
    [UInt8.ofNat (0xF0 ||| codepoint >>> 18),UInt8.ofNat (0x80 ||| (codepoint >>> 12 &&& 0x3F)),
      UInt8.ofNat (0x80 ||| (codepoint >>> 6 &&& 0x3F)),UInt8.ofNat (0x80 ||| (codepoint &&& 0x3F))]

/-- `utf16_to_utf8` from a unit on, after the bytes `out`. -/
def utf16ToUtf8 (capacity : Nat) : List Nat → Name → Option Name
  | [], out => some out
  | unit :: rest, out =>
    if unit=0 ∨ unit=0xFFFF then some out
    else if 0xD800≤unit ∧ unit≤0xDBFF then
      match rest with
      | [] => none
      | low :: rest =>
        if low<0xDC00 ∨ 0xDFFF<low then none
        else
          let bytes := utf8Bytes (0x10000+(unit-0xD800) <<< 10+(low-0xDC00))
          if capacity≤out.length+bytes.length then none
          else utf16ToUtf8 capacity rest (out ++ bytes)
    else if 0xDC00≤unit ∧ unit≤0xDFFF then none
    else
      let bytes := utf8Bytes unit
      if capacity≤out.length+bytes.length then none
      else utf16ToUtf8 capacity rest (out ++ bytes)

/-- The decoder of long names. -/
structure LfnState where
  units : Nat → Nat
  checksum : Nat
  expectedOrdinal : Nat
  totalOrdinals : Nat
  active : Bool

/-- The units and the checksum, which the source leaves as they are, are set before they are
read again. -/
def lfnReset : LfnState := ⟨fun _ => 0,0,0,0,false⟩

/-- Where an entry holds its thirteen units. -/
def unitPositions : List Nat := [1,3,5,7,9,14,16,18,20,22,24,28,30]

def ordinalOf (slot : ByteMemory) : Nat := (slot 0).toNat &&& 0x1F

/-- The slot that comes first on disk and begins a new name. -/
def beginsName (slot : ByteMemory) : Bool := (slot 0).toNat &&& 0x40 != 0

/-- The state a beginning slot is added to. -/
def lfnBegin (slot : ByteMemory) : LfnState :=
  { units := fun _ => 0xFFFF
    checksum := (slot 13).toNat
    expectedOrdinal := ordinalOf slot
    totalOrdinals := ordinalOf slot
    active := decide (0<ordinalOf slot ∧ ordinalOf slot≤20) }

/-- The thirteen units of a slot put in their place. -/
def storeSlot (slot : ByteMemory) (units : Nat → Nat) : Nat → Nat := fun k =>
  let base := (ordinalOf slot-1)*13
  if base≤k ∧ k<base+13 then read16 slot (unitPositions.getD (k-base) 0) else units k

def lfnAddEntry (state : LfnState) (slot : ByteMemory) : LfnState :=
  if (slot 0).toNat &&& 0xA0≠0 then lfnReset
  else
    let state := if beginsName slot then lfnBegin slot else state
    if !state.active || ordinalOf slot != state.expectedOrdinal ||
        (slot 13).toNat != state.checksum || slot 12 != 0 || read16 slot 26 != 0 then lfnReset
    else
      { state with
        units := storeSlot slot state.units
        expectedOrdinal := state.expectedOrdinal-1 }

def lfnDecode (state : LfnState) (short : ByteMemory) (capacity : Nat) : Option Name :=
  if !state.active || state.expectedOrdinal != 0 || lfnChecksum short != state.checksum then none
  else
    let units := (List.range (state.totalOrdinals*13)).map state.units
    utf16ToUtf8 capacity (units.takeWhile (· ≠ 0)) []

end LongNames

end ConeOS.Fat32
