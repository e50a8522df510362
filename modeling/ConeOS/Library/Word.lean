import Mathlib.Data.Nat.Bitwise
import Mathlib.Tactic.Common
import Mathlib.Tactic.IntervalCases

namespace ConeOS.Library

/-- Memory by 64-bit words. -/
abbrev Block := Nat → BitVec 64

/-- Byte `k` of a word, the lowest first. -/
def byteOf (w : BitVec 64) (k : Nat) : UInt8 := UInt8.ofNat (w.toNat/256 ^ k)

/-- The word made of the bytes `g 0` to `g 7`. -/
def packBytes (g : Nat → UInt8) : BitVec 64 :=
  BitVec.ofNat 64 ((g 0).toNat+(g 1).toNat*256+(g 2).toNat*256 ^ 2 +
    (g 3).toNat*256 ^ 3+(g 4).toNat*256 ^ 4+(g 5).toNat*256 ^ 5 +
    (g 6).toNat*256 ^ 6+(g 7).toNat*256 ^ 7)

def readByte (b : Block) (offset : Nat) : UInt8 := byteOf (b (offset/8)) (offset%8)

/-- `count` bytes stored from `offset` on. -/
def writeBytes (offset count : Nat) (f : Nat → UInt8) (b : Block) : Block :=
  fun i => packBytes (fun k =>
    if offset≤8*i+k ∧ 8*i+k<offset+count then f (8*i+k-offset)
    else byteOf (b i) k)

section Bytes

theorem byteOf_packBytes (g : Nat → UInt8) {k : Nat} (hk : k<8) :
    byteOf (packBytes g) k=g k := by
  have hb (j : Nat) : (g j).toNat<256 := UInt8.toNat_lt _
  have h0 := hb 0
  have h1 := hb 1
  have h2 := hb 2
  have h3 := hb 3
  have h4 := hb 4
  have h5 := hb 5
  have h6 := hb 6
  have h7 := hb 7
  apply UInt8.toNat_inj.mp
  rw [byteOf,packBytes,BitVec.toNat_ofNat,UInt8.toNat_ofNat']
  interval_cases k <;> omega

@[simp] theorem byteOf_zero (k : Nat) : byteOf 0#64 k=0 := by
  simp [byteOf]

@[simp] theorem readByte_zero (offset : Nat) : readByte (fun _ => 0#64) offset=0 := by
  simp [readByte]

theorem readByte_writeBytes (offset count : Nat) (f : Nat → UInt8) (b : Block) (o : Nat) :
    readByte (writeBytes offset count f b) o =
      if offset≤o ∧ o<offset+count then f (o-offset) else readByte b o := by
  have ho : 8*(o/8)+o%8 = o := Nat.div_add_mod o 8
  rw [readByte,writeBytes,byteOf_packBytes _ (Nat.mod_lt _ (by omega)),ho]
  rfl

theorem eq_of_digits {n a b : Nat} (ha : a<256 ^ n) (hb : b<256 ^ n)
    (h : ∀ k, k<n → a/256 ^ k%256=b/256 ^ k%256) : a=b := by
  induction n generalizing a b with
  | zero =>
    rw [Nat.pow_zero] at ha hb
    omega
  | succ n ih =>
    rw [Nat.pow_succ] at ha hb
    have hrest : a/256=b/256 := by
      refine ih (Nat.div_lt_of_lt_mul (by omega)) (Nat.div_lt_of_lt_mul (by omega)) ?_
      intro k hk
      have hnext := h (k+1) (by omega)
      rwa [Nat.pow_succ,Nat.mul_comm,← Nat.div_div_eq_div_mul,← Nat.div_div_eq_div_mul] at hnext
    have hlow := h 0 (by omega)
    rw [Nat.pow_zero,Nat.div_one,Nat.div_one] at hlow
    omega

theorem word_ext {w w' : BitVec 64} (h : ∀ k, k<8 → byteOf w' k=byteOf w k) : w'=w := by
  apply BitVec.eq_of_toNat_eq
  refine eq_of_digits (n := 8) w'.isLt w.isLt ?_
  intro k hk
  have hbyte := congrArg UInt8.toNat (h k hk)
  simpa only [byteOf,UInt8.toNat_ofNat'] using hbyte

theorem readByte_word (b : Block) (i : Nat) {k : Nat} (hk : k<8) :
    readByte b (8*i+k)=byteOf (b i) k := by
  rw [readByte,show (8*i+k)/8=i by omega,show (8*i+k)%8=k by omega]

end Bytes

/-- The test `word & flag`. -/
def hasFlag (e f : BitVec 64) : Bool := e &&& f != 0#64

section Flags

theorem hasFlag_twoPow (e : BitVec 64) (i : Nat) (hi : i<64) :
    hasFlag e (BitVec.twoPow 64 i)=e.getLsbD i := by
  have hne : BitVec.twoPow 64 i≠0#64 := by
    intro h
    have hbit := congrArg (fun w : BitVec 64 => w.getLsbD i) h
    simp [hi] at hbit
  rw [hasFlag,BitVec.and_twoPow]
  cases he : e.getLsbD i
  · simp
  · simpa using hne

/-- The address field of a page-table entry, bits 12 to 51. -/
def addressMask : BitVec 64 := 0x000FFFFFFFFFF000#64

theorem addressMask_bit (i : Nat) (hi : i<64) :
    addressMask.getLsbD i=decide (12 ≤ i ∧ i<52) := by
  revert i
  decide

/-- The number of the page an entry points to. -/
def addressPage (e : BitVec 64) : Nat := (e &&& addressMask).toNat/4096

theorem addressMask_and (e : BitVec 64) :
    (e &&& addressMask).toNat=e.toNat/4096%2 ^ 40*4096 := by
  apply Nat.eq_of_testBit_eq
  intro i
  have hmul : (e.toNat/4096%2 ^ 40*4096).testBit i =
      (decide (12 ≤ i) && (decide (i-12<40) && e.toNat.testBit i)) := by
    rw [show 4096=2 ^ 12 by norm_num,Nat.testBit_mul_two_pow,Nat.testBit_mod_two_pow,
      Nat.testBit_div_two_pow]
    by_cases h : 12 ≤ i
    · rw [Nat.sub_add_cancel h]
    · simp [h]
  rw [hmul,BitVec.toNat_and,Nat.testBit_and]
  by_cases hi : i<64
  · have hm := addressMask_bit i hi
    rw [BitVec.getLsbD] at hm
    rw [hm]
    by_cases h : 12 ≤ i ∧ i<52
    · have h' : i-12<40 := by omega
      simp [h.1,h.2,h']
    by_cases h1 : 12 ≤ i
    · have h2 : ¬ i<52 := fun h2 => h ⟨h1,h2⟩
      have h' : ¬ i-12<40 := by omega
      simp [h2,h']
    · simp [h1]
  · have he : e.toNat.testBit i=false :=
      Nat.testBit_lt_two_pow (lt_of_lt_of_le e.isLt (Nat.pow_le_pow_right (by omega) (by omega)))
    simp [he]

theorem addressPage_eq (e : BitVec 64) : addressPage e=e.toNat/4096%2 ^ 40 := by
  rw [addressPage,addressMask_and]
  omega

theorem addressPage_lt (e : BitVec 64) : addressPage e<2 ^ 40 := by
  rw [addressPage_eq]
  exact Nat.mod_lt _ (by norm_num)

/-- Flag words keep out of the address field. -/
def FlagsOnly (f : BitVec 64) : Prop := f &&& addressMask=0#64

theorem addressPage_congr {e e' : BitVec 64} (h : e &&& addressMask=e' &&& addressMask) :
    addressPage e=addressPage e' := by
  rw [addressPage,addressPage,h]

theorem addressPage_make {p : Nat} {f : BitVec 64} (hp : p<2 ^ 40) (hf : FlagsOnly f) :
    addressPage (BitVec.ofNat 64 (p*4096) ||| f)=p := by
  have hand : (BitVec.ofNat 64 (p*4096) ||| f) &&& addressMask =
      BitVec.ofNat 64 (p*4096) &&& addressMask := by
    rw [BitVec.and_or_distrib_right,hf,BitVec.or_zero]
  rw [addressPage_congr hand,addressPage_eq,BitVec.toNat_ofNat]
  omega

theorem make_bit {p i : Nat} {f : BitVec 64} (hp : p<2 ^ 40) (hi : i<12 ∨ 52 ≤ i) :
    (BitVec.ofNat 64 (p*4096) ||| f).getLsbD i=f.getLsbD i := by
  have hbit : (BitVec.ofNat 64 (p*4096)).getLsbD i=false := by
    rw [BitVec.getLsbD_ofNat,show 4096=2 ^ 12 by norm_num,Nat.testBit_mul_two_pow]
    rcases hi with hi | hi
    · have h : ¬ 12 ≤ i := by omega
      simp [h]
    · have hpow : p<2 ^ (i-12) :=
        lt_of_lt_of_le hp (Nat.pow_le_pow_right (by omega) (by omega))
      simp [Nat.testBit_lt_two_pow hpow]
  rw [BitVec.getLsbD_or,hbit,Bool.false_or]

end Flags

end ConeOS.Library
