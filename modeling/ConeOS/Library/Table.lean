import Mathlib.Data.Fintype.Basic
import Mathlib.Data.Fintype.Card
import Mathlib.Logic.Function.Basic

namespace ConeOS.Library

open Function

/-- The loop `for (i = 0; i < n; i++) if (p(i)) return &table[i]; return NULL`. -/
def firstIndex : {n : Nat} → (Fin n → Bool) → Option (Fin n)
  | 0, _ => none
  | _+1, p => if p 0 then some 0 else (firstIndex (fun i => p i.succ)).map Fin.succ

theorem firstIndex_some {n : Nat} {p : Fin n → Bool} {i : Fin n}
    (h : firstIndex p=some i) : p i=true := by
  induction n with
  | zero => exact i.elim0
  | succ n ih =>
    unfold firstIndex at h
    split at h
    · have hi : 0=i := Option.some.inj h
      rwa [← hi]
    · obtain ⟨j,hj,rfl⟩ := Option.map_eq_some_iff.mp h
      exact ih hj

theorem firstIndex_none {n : Nat} {p : Fin n → Bool} (h : firstIndex p=none) (i : Fin n) :
    p i=false := by
  induction n with
  | zero => exact i.elim0
  | succ n ih =>
    unfold firstIndex at h
    split at h
    · simp at h
    rename_i h0
    have hrest := Option.map_eq_none_iff.mp h
    refine Fin.cases ?_ (fun j => ?_) i
    · simpa using h0
    · exact ih hrest j

section Tally

variable {n : Nat} {α : Type}

/-- How many entries of a fixed table satisfy a test. -/
def tally (q : α → Bool) (t : Fin n → α) : Nat :=
  (Finset.univ.filter (fun i => q (t i)=true)).card

/-- Overwriting one entry trades its old contribution for the new one. -/
theorem tally_update (q : α → Bool) (t : Fin n → α) (i : Fin n) (v : α) :
    tally q (update t i v)+(q (t i)).toNat=tally q t+(q v).toNat := by
  classical
  let rest := (Finset.univ.erase i).filter (fun j => q (t j)=true)
  have split (u : Fin n → α) (hu : ∀ j, j≠i → u j=t j) :
      tally q u=rest.card+(q (u i)).toNat := by
    have keep : (Finset.univ.erase i).filter (fun j => q (u j)=true)=rest := by
      apply Finset.filter_congr
      intro j hj
      rw [hu j (Finset.ne_of_mem_erase hj)]
    have hni : i ∉ rest := by simp [rest]
    unfold tally
    rw [← Finset.insert_erase (Finset.mem_univ i),Finset.filter_insert,keep]
    cases hq : q (u i)
    · simp
    · simp [Finset.card_insert_of_notMem hni]
  rw [split t (fun _ _ => rfl),split (update t i v) (fun j hj => by simp [hj]),update_self]
  omega

theorem tally_pos {q : α → Bool} {t : Fin n → α} {i : Fin n} (h : q (t i)=true) :
    0<tally q t :=
  Finset.card_pos.mpr ⟨i,by simp [h]⟩

theorem tally_eq_zero {q : α → Bool} {t : Fin n → α} (h : ∀ i, q (t i)=false) :
    tally q t=0 := by
  simp [tally,h]

end Tally

end ConeOS.Library
