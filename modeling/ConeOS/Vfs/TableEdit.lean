import ConeOS.Vfs.TableInvariant

namespace ConeOS.Vfs

open ConeOS.Library Function

/-- `fd` is a copy of `source` for an owner under a number. -/
structure CopyOf (source fd : VfsFd) : Prop where
  used : source.used=true
  name : source.name=fd.name
  file : source.file=fd.file
  device : source.device=fd.device
  pipeMode : source.pipeMode=fd.pipeMode

/-- The small changes of which the calls on descriptors are made, open and pipe apart. Without
`wakes` no end of a pipe is closed. -/
inductive Edited {σ : Type} (wakes : Bool) (v : VfsState σ) : VfsState σ → Prop
  | refl : Edited wakes v v
  | stream {w : VfsState σ} (i : SlotRef) (owner n : Nat) (h : Edited wakes v w) :
    Edited wakes v (setSlot i ⟨true,owner,n,standardName n,none,.console,none,.none⟩ w)
  | copy {w : VfsState σ} (target source : SlotRef) {fd : VfsFd} (h : Edited wakes v w)
    (hfd : CopyOf (w.descriptors source) fd) : Edited wakes v (setSlot target fd w)
  | retain {w : VfsState σ} (file : Option FileRef) (h : Edited wakes v w) :
    Edited wakes v (openFileRetainLocked file w)
  | addEnd {w : VfsState σ} (pipe : Option PipeRef) (mode : PipeMode) (h : Edited wakes v w) :
    Edited wakes v (pipeAddEnd pipe mode w)
  | close {w : VfsState σ} (i : SlotRef) (h : Edited wakes v w)
    (hwakes : wakes=false → (w.descriptors i).pipeMode = .none) :
    Edited wakes v (closeSlot i w)

namespace Edited

variable {σ : Type} {u v w : VfsState σ} {a b : Bool}

theorem trans (h : Edited a u v) (h' : Edited a v w) : Edited a u w := by
  induction h' with
  | refl => exact h
  | stream i owner n _ ih => exact ih.stream i owner n
  | copy target source _ hfd ih => exact ih.copy target source hfd
  | retain file _ ih => exact ih.retain file
  | addEnd pipe mode _ ih => exact ih.addEnd pipe mode
  | close i _ hwakes ih => exact ih.close i hwakes

theorem weaken (h : Edited a v w) (hab : b=false → a=false) : Edited b v w := by
  induction h with
  | refl => exact .refl
  | stream i owner n _ ih => exact ih.stream i owner n
  | copy target source _ hfd ih => exact ih.copy target source hfd
  | retain file _ ih => exact ih.retain file
  | addEnd pipe mode _ ih => exact ih.addEnd pipe mode
  | close i _ hwakes ih => exact ih.close i (fun hb => hwakes (hab hb))

theorem standardStreams (owner : Nat) (h : Edited a u v) :
    Edited a u (ensureStandardStreams owner v) :=
  ensureStandardStreams_rule owner (fun _ n i hw _ _ => hw.stream i owner n) h

theorem retainEnd (pipe : Option PipeRef) (mode : PipeMode) (h : Edited a u v) :
    Edited a u (pipeRetainReference pipe mode v) := by
  unfold pipeRetainReference
  split
  · exact h
  · split
    · exact h.addEnd _ mode
    · exact h

theorem duplicateInto (target source : SlotRef) (owner : Nat) (number : Int) (h : Edited a u v)
    (hu : (v.descriptors source).used=true) :
    Edited a u (duplicateInto target (v.descriptors source) owner number v) := by
  have hfd : CopyOf (v.descriptors source)
      { v.descriptors source with owner := owner, number := number, used := true } :=
    ⟨hu,rfl,rfl,rfl,rfl⟩
  exact ((h.copy target source hfd).retain _).addEnd _ _

/-- The copy that inherit and fork make for the child. -/
theorem inherited (target source : SlotRef) (fd : VfsFd) (h : Edited a u v)
    (hfd : CopyOf (v.descriptors source) fd) :
    Edited a u (pipeRetainReference fd.pipe fd.pipeMode
      (openFileRetainLocked fd.file (setSlot target fd v))) :=
  ((h.copy target source hfd).retain _).retainEnd _ _

theorem vfsDup (owner : Nat) (number : Int) (v : VfsState σ) :
    Edited a v (vfsDup owner number v).state := by
  have hstd : Edited a v (ensureStandardStreams owner v) := .standardStreams owner .refl
  unfold Vfs.vfsDup
  dsimp only
  split
  · exact hstd
  next i hi =>
    split
    · exact hstd.duplicateInto _ i owner _ (lookup_some hi).1
    · exact hstd

theorem vfsDup2 (owner : Nat) (source destination : Int) (v : VfsState σ) :
    Edited (vfsDup2 owner source destination v).wakes v
      (vfsDup2 owner source destination v).state := by
  unfold Vfs.vfsDup2
  split
  · exact .refl
  have hstd (a : Bool) : Edited a v (ensureStandardStreams owner v) := .standardStreams owner .refl
  generalize ensureStandardStreams owner v=w at hstd
  dsimp only
  split
  · exact hstd _
  next i hi =>
    obtain ⟨hu,-,hnumber⟩ := lookup_some hi
    split
    · exact hstd _
    next hne =>
      unfold dup2Target
      cases hl : lookup w owner destination with
      | some target =>
        obtain ⟨htu,-,htn⟩ := lookup_some hl
        have hdiff : i≠target := by
          rintro rfl
          exact hne (hnumber.symm.trans htn)
        -- the old contents are given back first, so the slot is free when it is filled
        simp only [htu,if_true,duplicateInto_closeSlot]
        rw [← closeSlot_descriptors target i hdiff]
        exact ((hstd true).close target (by simp)).duplicateInto target i owner destination
          (by rw [closeSlot_descriptors target i hdiff]; exact hu)
      | none =>
        cases ha : allocateSlot w with
        | none => exact hstd _
        | some target =>
          simp only [allocateSlot_some ha,Bool.false_eq_true,if_false]
          exact (hstd true).duplicateInto target i owner destination hu

theorem vfsClose (owner : Nat) (number : Int) (v : VfsState σ) :
    Edited (vfsClose owner number v).wakes v (vfsClose owner number v).state := by
  unfold Vfs.vfsClose
  split
  · exact .refl
  · split
    · exact .refl
    · exact Edited.refl.close _ (by simp)

/-- The flag of close_all is only ever raised. -/
theorem closeAllFrom (owner : Nat) (is : List SlotRef) (c : Bool) (v : VfsState σ) :
    ((closeAllFrom owner is (c,v)).1=false → c=false) ∧
      Edited (closeAllFrom owner is (c,v)).1 v (closeAllFrom owner is (c,v)).2 := by
  induction is generalizing c v with
  | nil => exact ⟨id,.refl⟩
  | cons i is ih =>
    unfold Vfs.closeAllFrom
    split
    · obtain ⟨hflag,hrest⟩ := ih (c || decide ((v.descriptors i).pipeMode ≠ .none)) (closeSlot i v)
      refine ⟨fun h => (Bool.or_eq_false_iff.mp (hflag h)).1,?_⟩
      refine (Edited.refl.close i ?_).trans hrest
      intro h
      simpa using (Bool.or_eq_false_iff.mp (hflag h)).2
    · exact ih _ _

theorem vfsCloseAll (owner : Nat) (v : VfsState σ) :
    Edited (vfsCloseAll owner v).1 v (vfsCloseAll owner v).2 := by
  unfold Vfs.vfsCloseAll
  exact (closeAllFrom owner (List.finRange vfsDescriptorSlots) false v).2

theorem inheritFrom (parent child : Nat) (ns : List Nat) (h : Edited a u v) :
    Edited a u (inheritFrom parent child ns v).2 := by
  induction ns generalizing v with
  | nil => exact h
  | cons n ns ih =>
    unfold Vfs.inheritFrom
    split
    · exact h
    next w hw =>
      apply ih
      unfold inheritSlot at hw
      split at hw
      next source target hsource _ =>
        cases hw
        exact h.inherited target source { v.descriptors source with owner := child }
          ⟨(lookup_some hsource).1,rfl,rfl,rfl,rfl⟩
      · cases hw

theorem forkFrom (parent child : Nat) (is : List SlotRef) (c : Bool) (h : Edited a u v) :
    Edited a u (forkFrom parent child is c v).2 := by
  induction is generalizing c v with
  | nil => exact h
  | cons i is ih =>
    unfold Vfs.forkFrom
    split
    · exact h
    next more w hw =>
      apply ih
      unfold forkSlot at hw
      dsimp only at hw
      split at hw
      · obtain ⟨-,rfl⟩ := Prod.mk.inj (Option.some.inj hw)
        exact h
      next hparent =>
        split at hw
        · cases hw
        next target _ =>
          obtain ⟨-,rfl⟩ := Prod.mk.inj (Option.some.inj hw)
          simp only [Bool.or_eq_true,Bool.not_eq_true',bne_iff_ne,ne_eq,not_or,
            Bool.not_eq_false] at hparent
          exact h.inherited target i { v.descriptors i with owner := child, used := true }
            ⟨hparent.1,rfl,rfl,rfl,rfl⟩

/-- What inherit and fork do before they copy. -/
theorem emptied (parent child : Nat) (v : VfsState σ) :
    Edited (Vfs.vfsCloseAll child (ensureStandardStreams parent v)).1 v
      (Vfs.vfsCloseAll child (ensureStandardStreams parent v)).2 :=
  (Edited.refl.standardStreams parent).trans (vfsCloseAll child _)

/-- And what they do where they cannot finish. -/
theorem given_up (child : Nat) (h : Edited a u v) :
    Edited (a || (Vfs.vfsCloseAll child v).1) u (Vfs.vfsCloseAll child v).2 :=
  (h.weaken (fun hf => (Bool.or_eq_false_iff.mp hf).1)).trans
    ((vfsCloseAll child v).weaken (fun hf => (Bool.or_eq_false_iff.mp hf).2))

theorem vfsInheritStandard (parent child : Nat) (v : VfsState σ) :
    Edited (vfsInheritStandard parent child v).wakes v
      (vfsInheritStandard parent child v).state := by
  have hcopied := (emptied parent child v).inheritFrom parent child [0,1,2]
  unfold Vfs.vfsInheritStandard
  dsimp only
  split
  next w hw =>
    rw [hw] at hcopied
    exact hcopied
  next w hw =>
    rw [hw] at hcopied
    exact hcopied.given_up child

theorem vfsFork (parent child : Nat) (v : VfsState σ) :
    Edited (vfsFork parent child v).wakes v (vfsFork parent child v).state := by
  have hcopied := (emptied parent child v).forkFrom parent child
    (List.finRange vfsDescriptorSlots) false
  unfold Vfs.vfsFork
  dsimp only
  split
  · exact emptied parent child v
  split
  next inherited w hw =>
    rw [hw] at hcopied
    exact hcopied.weaken (fun hf => (Bool.or_eq_false_iff.mp hf).1)
  next w hw =>
    rw [hw] at hcopied
    exact hcopied.given_up child

end Edited

end ConeOS.Vfs
