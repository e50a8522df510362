import Mathlib.Data.Nat.Bitwise
import Mathlib.Tactic.Common

namespace ConeOS.Library

/-- The UTF-16 units of a character. -/
def utf16EncodeChar (c : Char) : List UInt16 :=
  if c.toNat<0x10000 then [UInt16.ofNat c.toNat]
  else [UInt16.ofNat (0xD800+(c.toNat-0x10000)/0x400),
    UInt16.ofNat (0xDC00+(c.toNat-0x10000)%0x400)]

theorem utf16EncodeChar_length (c : Char) :
    (utf16EncodeChar c).length=if c.toNat<0x10000 then 1 else 2 := by
  rw [utf16EncodeChar]
  split_ifs <;> rfl

theorem utf16EncodeChar_low {c : Char} (h : c.toNat<0x10000) :
    utf16EncodeChar c=[UInt16.ofNat c.toNat] := if_pos h

theorem utf16EncodeChar_high {c : Char} (h : ¬ c.toNat<0x10000) :
    utf16EncodeChar c=[UInt16.ofNat (0xD800+(c.toNat-0x10000)/0x400),
      UInt16.ofNat (0xDC00+(c.toNat-0x10000)%0x400)] := if_neg h

section Scalars

theorem char_valid (c : Char) : c.toNat<0xD800 ∨ 0xDFFF<c.toNat ∧ c.toNat<0x110000 := c.valid

theorem exists_char {n : Nat} (h : n<0xD800 ∨ 0xDFFF<n ∧ n<0x110000) :
    ∃ c : Char, c.toNat=n := ⟨Char.ofNatAux n h,rfl⟩

end Scalars

section Utf8

open String (utf8EncodeChar)

variable {c : Char}

theorem utf8EncodeChar_one (h : c.toNat<0x80) : utf8EncodeChar c=[UInt8.ofNat c.toNat] := by
  have h1 : c.val.toNat≤127 := by
    have : c.val.toNat=c.toNat := rfl
    omega
  simp only [utf8EncodeChar,if_pos h1]
  rfl

theorem utf8EncodeChar_two (h : 0x80≤c.toNat) (h' : c.toNat<0x800) :
    utf8EncodeChar c=[UInt8.ofNat (c.toNat/64+192),UInt8.ofNat (c.toNat%64+128)] := by
  have hval : c.val.toNat=c.toNat := rfl
  have hmod : c.toNat/64%32=c.toNat/64 := Nat.mod_eq_of_lt (by omega)
  simp only [utf8EncodeChar,hval]
  rw [if_neg (by omega),if_pos (by omega),hmod]

theorem utf8EncodeChar_three (h : 0x800≤c.toNat) (h' : c.toNat<0x10000) :
    utf8EncodeChar c=[UInt8.ofNat (c.toNat/4096+224),UInt8.ofNat (c.toNat/64%64+128),
      UInt8.ofNat (c.toNat%64+128)] := by
  have hval : c.val.toNat=c.toNat := rfl
  have hmod : c.toNat/4096%16=c.toNat/4096 := Nat.mod_eq_of_lt (by omega)
  simp only [utf8EncodeChar,hval]
  rw [if_neg (by omega),if_neg (by omega),if_pos (by omega),hmod]

theorem utf8EncodeChar_four (h : 0x10000≤c.toNat) :
    utf8EncodeChar c=[UInt8.ofNat (c.toNat/262144+240),
      UInt8.ofNat (c.toNat/4096%64+128),UInt8.ofNat (c.toNat/64%64+128),
      UInt8.ofNat (c.toNat%64+128)] := by
  have hval : c.val.toNat=c.toNat := rfl
  have hvalid := char_valid c
  have hmod : c.toNat/262144%8=c.toNat/262144 := Nat.mod_eq_of_lt (by omega)
  simp only [utf8EncodeChar,hval]
  rw [if_neg (by omega),if_neg (by omega),if_neg (by omega),hmod]

theorem utf8EncodeChar_length_pos (c : Char) : 0<(utf8EncodeChar c).length := by
  rw [String.length_utf8EncodeChar]
  exact Char.utf8Size_pos c

end Utf8

end ConeOS.Library
