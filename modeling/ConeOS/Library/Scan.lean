import Mathlib.Tactic.Common

namespace ConeOS.Library

open List

/-- How one round of a loop ends: it goes on with a state, or the loop returns. -/
inductive Step (σ β : Type) where
  | next (state : σ)
  | stop (result : β)

/-- A loop over a list whose body may return early. -/
def scan {α σ β : Type} (body : α → σ → Step σ β) : List α → σ → Step σ β
  | [], s => .next s
  | a :: as, s =>
    match body a s with
    | .next s' => scan body as s'
    | .stop b => .stop b

/-- The loop, with what is returned when it comes to its end. -/
def Step.finish {σ β : Type} (last : σ → β) : Step σ β → β
  | .next s => last s
  | .stop b => b

section Rules

variable {α σ β : Type} {body : α → σ → Step σ β}

@[simp] theorem scan_nil (s : σ) : scan body [] s = .next s := rfl

theorem scan_cons_next {a : α} {as : List α} {s s' : σ} (h : body a s = .next s') :
    scan body (a :: as) s=scan body as s' := by
  rw [scan,h]

theorem scan_cons_stop {a : α} {as : List α} {s : σ} {b : β} (h : body a s = .stop b) :
    scan body (a :: as) s = .stop b := by
  rw [scan,h]

theorem scan_append (as bs : List α) (s : σ) :
    scan body (as ++ bs) s =
      match scan body as s with
      | .next s' => scan body bs s'
      | .stop b => .stop b := by
  induction as generalizing s with
  | nil => rfl
  | cons a as ih =>
    rw [cons_append,scan,scan]
    cases body a s with
    | next s' => exact ih s'
    | stop b => rfl

theorem scan_append_next {as bs : List α} {s s' : σ} (h : scan body as s = .next s') :
    scan body (as ++ bs) s=scan body bs s' := by
  rw [scan_append,h]

theorem scan_flatMap {γ : Type} (f : γ → List α) (cs : List γ) (s : σ) :
    scan body (cs.flatMap f) s=scan (fun c s => scan body (f c) s) cs s := by
  induction cs generalizing s with
  | nil => rfl
  | cons c cs ih =>
    rw [flatMap_cons,scan_append,scan]
    cases scan body (f c) s with
    | next s' => exact ih s'
    | stop b => rfl

theorem scan_map {γ : Type} (f : γ → α) (cs : List γ) (s : σ) :
    scan body (cs.map f) s=scan (fun c s => body (f c) s) cs s := by
  induction cs generalizing s with
  | nil => rfl
  | cons c cs ih =>
    rw [map_cons,scan,scan]
    cases body (f c) s with
    | next s' => exact ih s'
    | stop b => rfl

theorem scan_congr {body' : α → σ → Step σ β} {as : List α}
    (h : ∀ a ∈ as, ∀ s, body a s=body' a s) (s : σ) : scan body as s=scan body' as s := by
  induction as generalizing s with
  | nil => rfl
  | cons a as ih =>
    rw [scan,scan,h a mem_cons_self]
    cases body' a s with
    | next s' => exact ih (fun b hb => h b (mem_cons_of_mem a hb)) s'
    | stop b => rfl

theorem scan_stop {as : List α} {s : σ} {b : β} (h : scan body as s = .stop b) :
    ∃ before a after s', as=before ++ a :: after ∧ scan body before s = .next s' ∧
      body a s' = .stop b := by
  induction as generalizing s with
  | nil => cases h
  | cons a as ih =>
    cases hbody : body a s with
    | next s' =>
      rw [scan_cons_next hbody] at h
      obtain ⟨before,c,after,s'',rfl,hbefore,hstop⟩ := ih h
      exact ⟨a :: before,c,after,s'',rfl,by rw [scan_cons_next hbody,hbefore],hstop⟩
    | stop b' =>
      rw [scan_cons_stop hbody] at h
      cases h
      exact ⟨[],a,as,s,rfl,rfl,hbody⟩

theorem scan_next_invariant {P : List α → σ → Prop} {as : List α} {s s' : σ} (h0 : P [] s)
    (hstep : ∀ before a s s', P before s → body a s = .next s' → P (before ++ [a]) s')
    (h : scan body as s = .next s') : P as s' := by
  have hgen : ∀ (as before : List α) (s : σ), P before s → scan body as s = .next s' →
      P (before ++ as) s' := by
    intro as
    induction as with
    | nil =>
      intro before s hp hs
      cases hs
      rwa [append_nil]
    | cons a as ih =>
      intro before s hp hs
      cases hbody : body a s with
      | next t =>
        rw [scan_cons_next hbody] at hs
        have := ih (before ++ [a]) t (hstep before a s t hp hbody) hs
        rwa [append_assoc] at this
      | stop b =>
        rw [scan_cons_stop hbody] at hs
        cases hs
  exact hgen as [] s h0 h

end Rules

end ConeOS.Library
