import Mathlib.Data.List.Range
import Mathlib.Tactic.Common

namespace ConeOS.Library

open List

/-- A loop over indices whose body may return early with failure. -/
def loopAll {σ : Type} (body : Nat → σ → Bool × σ) : List Nat → σ → Bool × σ
  | [], s => (true,s)
  | i :: is, s =>
    match body i s with
    | (true,s') => loopAll body is s'
    | (false,s') => (false,s')

section Rules

variable {σ : Type} {n : Nat} {is : List Nat}

/-- Both runs of a body took the same branch and ended in related states. -/
def Lockstep (f : σ → Bool × σ) (P Q : σ → σ → Prop) (s t : σ) : Prop :=
  (∃ s' t', f s=(true,s') ∧ f t=(true,t') ∧ P s' t') ∨
    ∃ s' t', f s=(false,s') ∧ f t=(false,t') ∧ Q s' t'

theorem Lockstep.congr {f f' : σ → Bool × σ} {P Q : σ → σ → Prop} {s t : σ}
    (h : Lockstep f P Q s t) (hs : f' s=f s) (ht : f' t=f t) : Lockstep f' P Q s t := by
  unfold Lockstep
  rw [hs,ht]
  exact h

theorem Lockstep.mono {f : σ → Bool × σ} {P P' Q Q' : σ → σ → Prop} {s t : σ}
    (h : Lockstep f P Q s t) (hp : ∀ s t, P s t → P' s t) (hq : ∀ s t, Q s t → Q' s t) :
    Lockstep f P' Q' s t := by
  rcases h with ⟨s',t',hs,ht,h⟩ | ⟨s',t',hs,ht,h⟩
  · exact Or.inl ⟨s',t',hs,ht,hp _ _ h⟩
  · exact Or.inr ⟨s',t',hs,ht,hq _ _ h⟩

/-- The loop rule for two runs: `P i` relates them before round `i`, a failing round leaves
them related by `Q`. -/
theorem loopAll_range {body : Nat → σ → Bool × σ} {P : Nat → σ → σ → Prop}
    {Q : σ → σ → Prop} {s t : σ} (h0 : P 0 s t)
    (hstep : ∀ i s t, i<n → P i s t → Lockstep (body i) (P (i+1)) Q s t) :
    Lockstep (loopAll body (List.range n)) (P n) Q s t := by
  have hfrom : ∀ k i s t, i+k=n → P i s t →
      Lockstep (loopAll body (List.range' i k)) (P n) Q s t := by
    intro k
    induction k with
    | zero =>
      intro i s t hi hp
      have hi : i=n := by omega
      subst hi
      exact Or.inl ⟨s,t,rfl,rfl,hp⟩
    | succ k ih =>
      intro i s t hi hp
      rcases hstep i s t (by omega) hp with ⟨s',t',hs,ht,hp'⟩ | ⟨s',t',hs,ht,hq⟩
      · rcases ih (i+1) s' t' (by omega) hp' with ⟨s2,t2,hs2,ht2,h⟩ | ⟨s2,t2,hs2,ht2,h⟩
        · refine Or.inl ⟨s2,t2,?_,?_,h⟩
          · rw [range'_succ,loopAll,hs]
            exact hs2
          · rw [range'_succ,loopAll,ht]
            exact ht2
        refine Or.inr ⟨s2,t2,?_,?_,h⟩
        · rw [range'_succ,loopAll,hs]
          exact hs2
        · rw [range'_succ,loopAll,ht]
          exact ht2
      · refine Or.inr ⟨s',t',?_,?_,hq⟩
        · rw [range'_succ,loopAll,hs]
        · rw [range'_succ,loopAll,ht]
  rw [range_eq_range']
  exact hfrom n 0 s t (by omega) h0

theorem loopAll_success {body : Nat → σ → Bool × σ} {P : Nat → σ → Prop} {s : σ}
    (h0 : P 0 s)
    (hstep : ∀ i s, i<n → P i s → ∃ s', body i s=(true,s') ∧ P (i+1) s') :
    ∃ s', loopAll body (List.range n) s=(true,s') ∧ P n s' := by
  have hrun : Lockstep (loopAll body (List.range n)) (fun s t => s=t ∧ P n s)
      (fun _ _ => False) s s := by
    refine loopAll_range (P := fun i s t => s=t ∧ P i s) ⟨rfl,h0⟩ ?_
    intro i s t hi hst
    obtain ⟨rfl,hp⟩ := hst
    obtain ⟨s',hbody,hp'⟩ := hstep i s hi hp
    exact .inl ⟨s',s',hbody,hbody,rfl,hp'⟩
  obtain ⟨s',t',hs,-,-,hp⟩ | ⟨s',t',-,-,hfalse⟩ := hrun
  · exact ⟨s',hs,hp⟩
  · exact hfalse.elim

theorem foldl_range {body : σ → Nat → σ} {P : Nat → σ → σ → Prop} {s t : σ}
    (h0 : P 0 s t) (hstep : ∀ i s t, i<n → P i s t → P (i+1) (body s i) (body t i)) :
    P n ((List.range n).foldl body s) ((List.range n).foldl body t) := by
  induction n with
  | zero => exact h0
  | succ n ih =>
    rw [range_succ,foldl_append,foldl_append]
    exact hstep n _ _ (by omega) (ih (fun i s t hi => hstep i s t (by omega)))

theorem foldl_invariant {body : σ → Nat → σ} {P : σ → Prop} {s : σ} (h : P s)
    (hstep : ∀ i ∈ is, ∀ s, P s → P (body s i)) : P (is.foldl body s) := by
  induction is generalizing s with
  | nil => exact h
  | cons i is ih =>
    exact ih (hstep i mem_cons_self s h) (fun j hj => hstep j (mem_cons_of_mem _ hj))

theorem loopAll_invariant {body : Nat → σ → Bool × σ} {P : σ → Prop} {s : σ}
    (h : P s) (hstep : ∀ i ∈ is, ∀ s, P s → P (body i s).2) : P (loopAll body is s).2 := by
  induction is generalizing s with
  | nil => exact h
  | cons i is ih =>
    have hone := hstep i mem_cons_self s h
    unfold loopAll
    split
    next s' hbody =>
      rw [hbody] at hone
      exact ih hone (fun j hj => hstep j (mem_cons_of_mem _ hj))
    next s' hbody =>
      rw [hbody] at hone
      exact hone

end Rules

end ConeOS.Library
