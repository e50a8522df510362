import Mathlib.Data.Nat.Basic
import Mathlib.Tactic.Common

namespace ConeOS.Library

open List

/-- A computation over bytes that keeps the offsets it has read. -/
def Reading (α : Type) : Type := (Nat → UInt8) → α × List Nat

namespace Reading

variable {α β : Type}

def value (c : Reading α) (bytes : Nat → UInt8) : α := (c bytes).1

def reads (c : Reading α) (bytes : Nat → UInt8) : List Nat := (c bytes).2

instance : Monad Reading where
  pure a := fun _ => (a, [])
  bind c f := fun bytes =>
    let r := c bytes
    let s := f r.1 bytes
    (s.1,r.2 ++ s.2)

/-- The byte at an offset. -/
def byte (offset : Nat) : Reading UInt8 := fun bytes => (bytes offset, [offset])

/-- `count` bytes from an offset on. -/
def block : Nat → Nat → Reading (List UInt8)
  | _, 0 => pure []
  | offset, count+1 => do
    let b ← byte offset
    let rest ← block (offset+1) count
    pure (b :: rest)

@[simp] theorem value_pure (a : α) (bytes : Nat → UInt8) : (pure a : Reading α).value bytes=a :=
  (rfl)

@[simp] theorem value_bind (c : Reading α) (f : α → Reading β) (bytes : Nat → UInt8) :
    (c >>= f).value bytes=(f (c.value bytes)).value bytes := (rfl)

@[simp] theorem value_byte (offset : Nat) (bytes : Nat → UInt8) :
    (byte offset).value bytes=bytes offset := (rfl)

@[simp] theorem value_ite (p : Prop) [Decidable p] (c d : Reading α) (bytes : Nat → UInt8) :
    (if p then c else d).value bytes=if p then c.value bytes else d.value bytes := by
  split_ifs <;> rfl

@[simp] theorem value_block (offset count : Nat) (bytes : Nat → UInt8) :
    (block offset count).value bytes=(List.range count).map (fun i => bytes (offset+i)) := by
  induction count generalizing offset with
  | zero => rfl
  | succ count ih =>
    rw [block,value_bind,value_bind,value_pure,ih,range_succ_eq_map,map_cons,map_map]
    congr 1
    apply map_congr_left
    intro i _
    show bytes (offset+1+i)=bytes (offset+(i+1))
    rw [Nat.add_assoc,Nat.add_comm 1]

/-- Everything read lies below `limit`. -/
def Below (limit : Nat) (c : Reading α) (bytes : Nat → UInt8) : Prop :=
  ∀ i ∈ c.reads bytes, i<limit

section Below

variable {limit : Nat} {bytes : Nat → UInt8}

theorem below_pure (a : α) : Below limit (pure a : Reading α) bytes :=
  fun _ hi => absurd hi not_mem_nil

theorem below_byte {offset : Nat} (h : offset<limit) : Below limit (byte offset) bytes := by
  intro i hi
  rw [mem_singleton.mp hi]
  exact h

theorem below_bind {c : Reading α} {f : α → Reading β} (hc : Below limit c bytes)
    (hf : Below limit (f (c.value bytes)) bytes) : Below limit (c >>= f) bytes := by
  intro i hi
  rcases mem_append.mp hi with hi | hi
  · exact hc i hi
  · exact hf i hi

theorem below_block {offset count : Nat} (h : offset+count≤limit) :
    Below limit (block offset count) bytes := by
  induction count generalizing offset with
  | zero => exact below_pure _
  | succ count ih =>
    exact below_bind (below_byte (by omega)) (below_bind (ih (by omega)) (below_pure _))

theorem below_ite {p : Prop} [Decidable p] {c d : Reading α} (hc : p → Below limit c bytes)
    (hd : ¬ p → Below limit d bytes) : Below limit (if p then c else d) bytes := by
  split_ifs with h
  · exact hc h
  · exact hd h

end Below

end Reading

end ConeOS.Library
