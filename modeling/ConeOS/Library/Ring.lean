import Mathlib.Data.List.Range
import Mathlib.Data.Nat.ModEq
import Mathlib.Tactic.Common

namespace ConeOS.Library

open Function List

/-- The elements held by a ring buffer of size `cap`: `count` cells from `head` on. -/
def ringContents {α : Type} (cap : Nat) (data : Nat → α) (head count : Nat) : List α :=
  (List.range count).map (fun i => data ((head+i)%cap))

section Ring

variable {α : Type} {cap : Nat}

@[simp] theorem ringContents_length (data : Nat → α) (head count : Nat) :
    (ringContents cap data head count).length=count := by
  simp [ringContents]

@[simp] theorem ringContents_zero (data : Nat → α) (head : Nat) :
    ringContents cap data head 0=[] := rfl

theorem ringContents_pop (data : Nat → α) (head count : Nat) (hh : head<cap) :
    ringContents cap data head (count+1) =
      data head :: ringContents cap data ((head+1)%cap) count := by
  unfold ringContents
  rw [range_succ_eq_map,map_cons,map_map,Nat.add_zero,Nat.mod_eq_of_lt hh]
  congr 1
  apply map_congr_left
  intro i _
  simp only [Function.comp_apply,Nat.succ_eq_add_one,Nat.mod_add_mod]
  congr 2
  omega

theorem ringContents_push (data : Nat → α) (head count : Nat) (x : α) (hc : count<cap) :
    ringContents cap (update data ((head+count)%cap) x) head (count+1) =
      ringContents cap data head count ++ [x] := by
  unfold ringContents
  rw [range_succ,map_append,map_singleton,update_self]
  congr 1
  apply map_congr_left
  intro i hi
  have hi : i<count := mem_range.mp hi
  have hne : (head+i)%cap≠(head+count)%cap := by
    intro he
    have hm : count%cap=i%cap := Nat.ModEq.add_left_cancel' head he.symm
    rw [Nat.mod_eq_of_lt hc,Nat.mod_eq_of_lt (hi.trans hc)] at hm
    omega
  rw [update_of_ne hne]

end Ring

end ConeOS.Library
