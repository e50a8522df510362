import Mathlib.Algebra.GroupWithZero.Nat
import Mathlib.Data.Finset.Card
import Mathlib.Data.Finset.Prod
import Mathlib.Order.Interval.Finset.Nat

namespace ConeOS.Library

open List

variable {ι α : Type} [DecidableEq α]

/-- How many members of a family have the value `a`. -/
def occurrences (s : Finset ι) (f : ι → Option α) (a : α) : Nat :=
  (s.filter (fun i => f i=some a)).card

theorem occurrences_congr {s : Finset ι} {f g : ι → Option α} (h : ∀ i ∈ s, g i=f i) (a : α) :
    occurrences s g a = occurrences s f a := by
  unfold occurrences
  congr 1
  apply Finset.filter_congr
  intro i hi
  rw [h i hi]

theorem occurrences_eq_zero {s : Finset ι} {f : ι → Option α} {a : α} :
    occurrences s f a=0 ↔ ∀ i ∈ s, f i≠some a := by
  rw [occurrences,Finset.card_eq_zero,Finset.filter_eq_empty_iff]

theorem occurrences_pos {s : Finset ι} {f : ι → Option α} {a : α} {i : ι} (hi : i ∈ s)
    (h : f i=some a) : 0<occurrences s f a := by
  rw [Nat.pos_iff_ne_zero,ne_eq,occurrences_eq_zero]
  intro hno
  exact hno i hi h

theorem occurrences_update [DecidableEq ι] {s : Finset ι} {f g : ι → Option α} {x : ι}
    (hx : x ∈ s) (h : ∀ i ∈ s, i≠x → g i=f i) (a : α) :
    occurrences s g a+(if f x=some a then 1 else 0) =
      occurrences s f a+(if g x=some a then 1 else 0) := by
  have split (u : ι → Option α) : occurrences s u a =
      occurrences (s.erase x) u a+(if u x=some a then 1 else 0) := by
    unfold occurrences
    rw [← Finset.insert_erase hx,Finset.filter_insert,Finset.erase_insert (by simp)]
    split_ifs with hu
    · rw [Finset.card_insert_of_notMem (by simp)]
    · rfl
  have hrest : occurrences (s.erase x) g a = occurrences (s.erase x) f a :=
    occurrences_congr (fun i hi => h i (Finset.mem_of_mem_erase hi) (Finset.ne_of_mem_erase hi)) a
  rw [split f,split g,hrest]
  omega

theorem occurrences_one {s : Finset ι} {f : ι → Option α} {a : α} {x y : ι}
    (h : occurrences s f a≤1) (hx : x ∈ s) (hy : y ∈ s) (hfx : f x=some a)
    (hfy : f y=some a) : x=y := by
  unfold occurrences at h
  exact Finset.card_le_one.mp h x (by simp [hx,hfx]) y (by simp [hy,hfy])

/-- A family over pairs splits by its first index. -/
theorem occurrences_erase [DecidableEq ι] {κ : Type} {s : Finset ι} {t : Finset κ} {x : ι}
    (hx : x ∈ s) (f : ι × κ → Option α) (a : α) :
    occurrences (s ×ˢ t) f a =
      occurrences ((s.erase x) ×ˢ t) f a+occurrences t (fun k => f (x,k)) a := by
  classical
  unfold occurrences
  have hsplit : (s ×ˢ t).filter (fun p => f p=some a) =
      ((s.erase x) ×ˢ t).filter (fun p => f p=some a) ∪
        (t.filter (fun k => f (x,k)=some a)).image (Prod.mk x) := by
    ext ⟨i,k⟩
    simp only [Finset.mem_filter,Finset.mem_product,Finset.mem_union,Finset.mem_erase,
      Finset.mem_image,Prod.mk.injEq]
    constructor
    · rintro ⟨⟨hi,hk⟩,hf⟩
      by_cases h : i=x
      · subst h
        exact Or.inr ⟨k,⟨hk,hf⟩,rfl,rfl⟩
      · exact Or.inl ⟨⟨⟨h,hi⟩,hk⟩,hf⟩
    · rintro (⟨⟨⟨-,hi⟩,hk⟩,hf⟩ | ⟨k',⟨hk,hf⟩,rfl,rfl⟩)
      · exact ⟨⟨hi,hk⟩,hf⟩
      · exact ⟨⟨hx,hk⟩,hf⟩
  rw [hsplit,Finset.card_union_of_disjoint,
    Finset.card_image_of_injective _ (Prod.mk_right_injective x)]
  rw [Finset.disjoint_left]
  rintro ⟨i,k⟩ hleft hright
  simp only [Finset.mem_filter,Finset.mem_product,Finset.mem_erase,Finset.mem_image,
    Prod.mk.injEq] at hleft hright
  obtain ⟨k',-,rfl,-⟩ := hright
  exact hleft.1.1.1 rfl

section Blocks

variable {f : Nat → Option α}

theorem occurrences_single (a : Nat) (x : α) :
    occurrences (Finset.Ico a (a+1)) f x=if f a=some x then 1 else 0 := by
  unfold occurrences
  rw [Nat.Ico_succ_singleton,Finset.filter_singleton]
  split_ifs <;> rfl

/-- A range of indices in `n` blocks of `w`. -/
theorem occurrences_blocks (a w n : Nat) (x : α) :
    occurrences (Finset.Ico a (a+n*w)) f x =
      ((List.range n).map (fun i =>
        occurrences (Finset.Ico (a+i*w) (a+i*w+w)) f x)).sum := by
  induction n with
  | zero => simp [occurrences]
  | succ n ih =>
    have hstop : a+(n+1)*w=a+n*w+w := by
      rw [Nat.add_mul,Nat.one_mul,Nat.add_assoc]
    have hunion : Finset.Ico a (a+(n+1)*w) =
        Finset.Ico a (a+n*w) ∪ Finset.Ico (a+n*w) (a+n*w+w) := by
      rw [hstop,Finset.Ico_union_Ico_eq_Ico (Nat.le_add_right _ _) (Nat.le_add_right _ _)]
    have hdisjoint : Disjoint (Finset.Ico a (a+n*w)) (Finset.Ico (a+n*w) (a+n*w+w)) :=
      Finset.Ico_disjoint_Ico_consecutive _ _ _
    rw [range_succ,map_append,sum_append,← ih,hunion]
    unfold occurrences
    rw [Finset.filter_union,Finset.card_union_of_disjoint (Finset.disjoint_filter_filter hdisjoint)]
    simp

end Blocks

theorem sum_range_indicator (n k : Nat) :
    ((List.range n).map (fun i => if i=k then 1 else 0)).sum=if k<n then 1 else 0 := by
  induction n with
  | zero => simp
  | succ n ih =>
    rw [range_succ,map_append,sum_append,ih]
    simp only [map_cons,map_nil,sum_cons,sum_nil,Nat.add_zero]
    split_ifs <;> omega

end ConeOS.Library
