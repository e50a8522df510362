import ConeOS.Vfs.PipeSystem
import ConeOS.Vfs.TableEdit

namespace ConeOS.Vfs

open ConeOS.Library

/-- What the calls on descriptors do to the ring of a pipe that exists: nothing, or they
drop its last end and empty it. -/
def RingStep (p q : VfsPipe) : Prop :=
  (q.used=p.used ∧ q.head=p.head ∧ q.tail=p.tail ∧ q.count=p.count ∧ q.data=p.data) ∨
    (q.used=false ∧ q.head=0 ∧ q.tail=0 ∧ q.count=0)

/-- What `vfs_pipe` makes of a pipe that was not in use. -/
def RingFresh (p q : VfsPipe) : Prop :=
  p.used=false ∧ q.used=true ∧ q.head=0 ∧ q.tail=0 ∧ q.count=0

theorem RingStep.refl (p : VfsPipe) : RingStep p p := Or.inl ⟨rfl,rfl,rfl,rfl,rfl⟩

theorem RingStep.trans {p q r : VfsPipe} (hpq : RingStep p q) (hqr : RingStep q r) :
    RingStep p r := by
  rcases hqr with ⟨hu,hh,ht,hc,hd⟩ | hdrop
  · rcases hpq with ⟨hu',hh',ht',hc',hd'⟩ | ⟨hu',hh',ht',hc'⟩
    · exact Or.inl ⟨hu.trans hu',hh.trans hh',ht.trans ht',hc.trans hc',hd.trans hd'⟩
    · exact Or.inr ⟨hu.trans hu',hh.trans hh',ht.trans ht',hc.trans hc'⟩
  · exact Or.inr hdrop

/-- Who has to wait for the pipe still has to. -/
def KeepsWaits (p q : VfsPipe) : Prop :=
  (pipeReaderShouldWait p=true → pipeReaderShouldWait q=true) ∧
    (pipeWriterShouldWait p=true → pipeWriterShouldWait q=true)

theorem KeepsWaits.refl (p : VfsPipe) : KeepsWaits p p := ⟨id,id⟩

theorem KeepsWaits.trans {p q r : VfsPipe} (h : KeepsWaits p q) (h' : KeepsWaits q r) :
    KeepsWaits p r := ⟨h'.1 ∘ h.1,h'.2 ∘ h.2⟩

/-- What the calls on descriptors do to a pipe that exists; without a `task_wake_blocked` they
end nobody's wait. -/
structure PipeEdit (wakes : Bool) (p q : VfsPipe) : Prop where
  ring : RingStep p q
  waits : wakes=false → KeepsWaits p q

section Calls

variable {σ : Type} {u v w : VfsState σ} {a b : Bool}

def PipesEdited (wakes : Bool) (v w : VfsState σ) : Prop :=
  ∀ k, PipeEdit wakes (v.pipes k) (w.pipes k)

theorem PipesEdited.of_eq (a : Bool) (h : w.pipes=v.pipes) : PipesEdited a v w := by
  intro k
  rw [h]
  exact ⟨RingStep.refl _,fun _ => KeepsWaits.refl _⟩

theorem PipesEdited.weaken (h : PipesEdited a v w) (hab : b=false → a=false) :
    PipesEdited b v w :=
  fun k => ⟨(h k).ring,fun hb => (h k).waits (hab hb)⟩

theorem PipesEdited.trans (h : PipesEdited a u v) (h' : PipesEdited a v w) : PipesEdited a u w :=
  fun k => ⟨(h k).ring.trans (h' k).ring,fun ha => ((h k).waits ha).trans ((h' k).waits ha)⟩

theorem pipeDropReferenceLocked_edits (pipe : Option PipeRef) (mode : PipeMode)
    (v : VfsState σ) :
    PipesEdited (decide (mode ≠ .none)) v (pipeDropReferenceLocked pipe mode v) := by
  intro k
  cases pipe with
  | none => exact PipesEdited.of_eq _ rfl k
  | some j =>
    unfold pipeDropReferenceLocked
    dsimp only
    by_cases hu : (v.pipes j).used=true
    · rw [if_neg (by simp [hu])]
      by_cases h : k=j
      · subst h
        dsimp only
        rw [Function.update_self]
        refine ⟨?_,?_⟩
        · split_ifs <;> first
            | exact Or.inr ⟨rfl,rfl,rfl,rfl⟩
            | exact Or.inl ⟨rfl,rfl,rfl,rfl,rfl⟩
        intro hmode
        have hmode : mode = .none := by simpa using hmode
        subst hmode
        simp only [reduceCtorEq,false_and,if_false]
        split_ifs with hends
        · simp [KeepsWaits,pipeReaderShouldWait,pipeWriterShouldWait,hends]
        · exact KeepsWaits.refl _
      · dsimp only
        rw [Function.update_of_ne h]
        exact PipesEdited.of_eq _ rfl k
    · rw [if_pos (by simpa using hu)]
      exact PipesEdited.of_eq _ rfl k

theorem pipeAddEnd_edits (pipe : Option PipeRef) (mode : PipeMode) (v : VfsState σ) :
    PipesEdited a v (pipeAddEnd pipe mode v) := by
  intro k
  cases pipe with
  | none => exact PipesEdited.of_eq _ rfl k
  | some j =>
    by_cases h : k=j
    · subst h
      cases mode
      · exact PipesEdited.of_eq _ rfl k
      · refine ⟨by simp [pipeAddEnd,RingStep],fun _ => ?_⟩
        simp +contextual [pipeAddEnd,KeepsWaits,pipeReaderShouldWait,pipeWriterShouldWait]
      · refine ⟨by simp [pipeAddEnd,RingStep],fun _ => ?_⟩
        simp +contextual [pipeAddEnd,KeepsWaits,pipeReaderShouldWait,pipeWriterShouldWait]
    · cases mode <;> simp [pipeAddEnd,h,PipeEdit.mk,RingStep.refl,KeepsWaits.refl]

@[simp] theorem ensureStandardStreams_pipes (owner : Nat) (v : VfsState σ) :
    (ensureStandardStreams owner v).pipes=v.pipes := by
  have hround (n : Nat) (u w : VfsState σ) (h : ensureStandardStream owner n u=some w) :
      w.pipes=u.pipes := by
    unfold ensureStandardStream at h
    split at h
    · rw [← Option.some.inj h]
    · split at h
      · cases h
      · rw [← Option.some.inj h,setSlot_pipes]
  have hloop (ns : List Nat) (u : VfsState σ) :
      (ensureStandardFrom owner ns u).pipes=u.pipes := by
    induction ns generalizing u with
    | nil => rfl
    | cons n ns ih =>
      unfold ensureStandardFrom
      split
      · rfl
      · rename_i w hw
        rw [ih w,hround n u w hw]
  exact hloop _ v

theorem openDescriptor_pipes (owner : Nat) (name : Path) (device : DevfsDevice)
    (v : VfsState σ) : (openDescriptor owner name device v).state.pipes=v.pipes := by
  have halloc : (allocateOpenFileLocked v).2.pipes=v.pipes := by
    unfold allocateOpenFileLocked
    split <;> rfl
  unfold openDescriptor
  split
  · rfl
  · split <;> rename_i heq <;> simp_all

theorem vfsOpen_pipes (ops : FsKind → FsOps σ) (cwd : Option Path) (owner : Nat) (name : Path)
    (create : Bool) (v : VfsState σ) :
    (vfsOpen ops cwd owner name create v).state.pipes=v.pipes := by
  unfold vfsOpen
  split
  · rfl
  split
  · rfl
  dsimp only
  split
  · rfl
  · rw [openDescriptor_pipes,ensureStandardStreams_pipes]

theorem releaseSlot_edits (file : Option FileRef) (pipe : Option PipeRef) (mode : PipeMode)
    (v : VfsState σ) :
    PipesEdited (decide (mode ≠ .none)) v
      (openFileReleaseLocked file (pipeDropReferenceLocked pipe mode v)) :=
  (pipeDropReferenceLocked_edits pipe mode v).trans
    (PipesEdited.of_eq _ (openFileReleaseLocked_pipes _ _))

theorem closeSlot_edits (i : SlotRef) (v : VfsState σ) :
    PipesEdited (decide ((v.descriptors i).pipeMode ≠ .none)) v (closeSlot i v) :=
  (releaseSlot_edits (v.descriptors i).file _ _ v).trans
    (PipesEdited.of_eq _ (setSlot_pipes _ _ _))

theorem PipesEdited.of_edited (h : Edited a v w) : PipesEdited a v w := by
  induction h with
  | refl => exact PipesEdited.of_eq _ rfl
  | stream i owner n _ ih => exact ih.trans (PipesEdited.of_eq _ (setSlot_pipes _ _ _))
  | copy target source _ _ ih => exact ih.trans (PipesEdited.of_eq _ (setSlot_pipes _ _ _))
  | retain file _ ih => exact ih.trans (PipesEdited.of_eq _ (by simp))
  | addEnd pipe mode _ ih => exact ih.trans (pipeAddEnd_edits pipe mode _)
  | close i _ hwakes ih =>
    exact ih.trans ((closeSlot_edits i _).weaken (fun ha => by simp [hwakes ha]))

theorem vfsPipe_edits (owner : Nat) (v : VfsState σ) (k : PipeRef) :
    PipeEdit a (v.pipes k) ((vfsPipe owner v).1.state.pipes k) ∨
      RingFresh (v.pipes k) ((vfsPipe owner v).1.state.pipes k) := by
  have hstd : (ensureStandardStreams owner v).pipes=v.pipes := by simp
  unfold vfsPipe
  dsimp only
  split
  next j n0 n1 i0 i1 hj hn hs =>
    have hidle : (v.pipes j).used=false := by
      have := firstIndex_some hj
      simpa [hstd] using this
    by_cases h : k=j
    · subst h
      right
      simp [RingFresh,hidle]
    · left
      simp [h,PipeEdit.mk,RingStep.refl,KeepsWaits.refl]
  · left
    exact PipesEdited.of_eq _ hstd k

/-- One call of the table edits each pipe, or makes a new one of it. -/
theorem TableCall.run_edits (ops : FsKind → FsOps σ) (c : TableCall) (v : VfsState σ)
    (k : PipeRef) :
    PipeEdit (c.run ops v).wakes (v.pipes k) ((c.run ops v).state.pipes k) ∨
      RingFresh (v.pipes k) ((c.run ops v).state.pipes k) := by
  cases c with
  | «open» cwd owner name create => exact Or.inl (PipesEdited.of_eq _ (vfsOpen_pipes ..) k)
  | pipe owner => exact vfsPipe_edits owner v k
  | dup owner number => exact Or.inl (PipesEdited.of_edited (.vfsDup owner number v) k)
  | dup2 owner source destination =>
    exact Or.inl (PipesEdited.of_edited (.vfsDup2 owner source destination v) k)
  | close owner number => exact Or.inl (PipesEdited.of_edited (.vfsClose owner number v) k)
  | closeAll owner => exact Or.inl (PipesEdited.of_edited (.vfsCloseAll owner v) k)
  | inheritStandard parent child =>
    exact Or.inl (PipesEdited.of_edited (.vfsInheritStandard parent child v) k)
  | fork parent child => exact Or.inl (PipesEdited.of_edited (.vfsFork parent child v) k)

theorem TableCall.run_waits (ops : FsKind → FsOps σ) (c : TableCall) (v : VfsState σ)
    (h : (c.run ops v).wakes=false) (k : PipeRef) :
    KeepsWaits (v.pipes k) ((c.run ops v).state.pipes k) := by
  rcases c.run_edits ops v k with hedit | hfresh
  · exact hedit.waits h
  · simp [KeepsWaits,pipeReaderShouldWait,pipeWriterShouldWait,hfresh.1]

end Calls

end ConeOS.Vfs
