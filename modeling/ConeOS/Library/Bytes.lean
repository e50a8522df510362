import Mathlib.Algebra.GroupWithZero.Nat
import Mathlib.Data.Nat.Basic
import Mathlib.Logic.Function.Basic
import Mathlib.Tactic.Common

namespace ConeOS.Library

open Function List

/-- Memory by bytes. -/
abbrev ByteMemory := Nat → UInt8

/-- A run of bytes stored from `base` on. -/
def store (base : Nat) (bytes : List UInt8) (m : ByteMemory) : ByteMemory := fun a =>
  if base≤a ∧ a<base+bytes.length then bytes.getD (a-base) 0 else m a

/-- The `count` bytes from `base` on. -/
def load (base count : Nat) (m : ByteMemory) : List UInt8 :=
  (List.range count).map (fun i => m (base+i))

/-- The `width` bytes of a number, the lowest first. -/
def toLittleEndian : Nat → Nat → List UInt8
  | 0, _ => []
  | width+1, n => UInt8.ofNat n :: toLittleEndian width (n/256)

def ofLittleEndian : List UInt8 → Nat
  | [] => 0
  | b :: bs => b.toNat+256*ofLittleEndian bs

section Memory

variable {base base' count : Nat} {bytes : List UInt8} {m : ByteMemory}

@[simp] theorem load_length : (load base count m).length=count := by
  rw [load,length_map,length_range]

theorem load_congr {m' : ByteMemory} (h : ∀ i, i<count → m' (base+i)=m (base+i)) :
    load base count m'=load base count m := by
  apply map_congr_left
  intro i hi
  exact h i (mem_range.mp hi)

theorem store_apply_of_lt {a : Nat} (h : a<base) : store base bytes m a=m a :=
  if_neg (by omega)

theorem store_apply_of_ge {a : Nat} (h : base+bytes.length≤a) : store base bytes m a=m a :=
  if_neg (by omega)

@[simp] theorem store_nil : store base [] m=m := by
  funext a
  exact if_neg (by rw [length_nil]; omega)

theorem store_cons (b : UInt8) :
    store base (b :: bytes) m=store (base+1) bytes (update m base b) := by
  funext a
  rw [store,store,length_cons]
  by_cases ha : a=base
  · subst ha
    rw [if_pos (by omega),if_neg (by omega),Nat.sub_self,update_self]
    rfl
  rw [update_of_ne ha]
  by_cases hin : base≤a ∧ a<base+(bytes.length+1)
  · rw [if_pos hin,if_pos (by omega),show a-base=a-(base+1)+1 by omega,getD_cons_succ]
  · rw [if_neg hin,if_neg (by omega)]

theorem load_store (h : count=bytes.length) : load base count (store base bytes m)=bytes := by
  subst h
  apply ext_getElem
  · rw [load_length]
  intro i _ hi
  simp only [load,getElem_map,getElem_range]
  rw [store,if_pos (by omega),Nat.add_sub_cancel_left,getD_eq_getElem?_getD,
    List.getElem?_eq_getElem hi,Option.getD_some]

theorem load_store_apart (h : base+count≤base' ∨ base'+bytes.length≤base) :
    load base count (store base' bytes m)=load base count m := by
  apply load_congr
  intro i hi
  exact if_neg (by omega)

end Memory

@[simp] theorem toLittleEndian_length (width n : Nat) : (toLittleEndian width n).length=width := by
  induction width generalizing n with
  | zero => rfl
  | succ width ih => rw [toLittleEndian,length_cons,ih]

theorem ofLittleEndian_toLittleEndian {width n : Nat} (h : n<256 ^ width) :
    ofLittleEndian (toLittleEndian width n)=n := by
  induction width generalizing n with
  | zero =>
    rw [Nat.pow_zero] at h
    rw [toLittleEndian,ofLittleEndian]
    omega
  | succ width ih =>
    rw [Nat.pow_succ] at h
    have hdiv : n/256<256 ^ width := by
      rw [Nat.div_lt_iff_lt_mul (by omega)]
      exact h
    rw [toLittleEndian,ofLittleEndian,ih hdiv,UInt8.toNat_ofNat']
    omega

end ConeOS.Library
