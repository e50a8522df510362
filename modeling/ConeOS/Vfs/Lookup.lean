import ConeOS.Vfs.File
import ConeOS.Vfs.Resolution

namespace ConeOS.Vfs

open ConeOS.Library Function

variable {σ : Type} {v : VfsState σ} {owner : Nat} {number : Int} {i : SlotRef} {fd : VfsFd}

/-- A slot that belongs to the owner under the number. -/
def VfsFd.is (fd : VfsFd) (owner : Nat) (number : Int) : Bool :=
  fd.used && fd.owner == owner && fd.number == number

theorem lookup_congr {w : VfsState σ}
    (h : ∀ i, (w.descriptors i).is owner number=(v.descriptors i).is owner number) :
    lookup w owner number=lookup v owner number := by
  have hfun : (fun i => (w.descriptors i).is owner number) =
      fun i => (v.descriptors i).is owner number := funext h
  exact congrArg firstIndex hfun

theorem lookup_setSlot_same
    (h : fd.is owner number=(v.descriptors i).is owner number) :
    lookup (setSlot i fd v) owner number=lookup v owner number := by
  apply lookup_congr
  intro j
  by_cases hj : j=i
  · rw [hj,setSlot_descriptors,update_self,h]
  · rw [setSlot_descriptors,update_of_ne hj]

theorem lookup_none_is (h : lookup v owner number=none)
    (j : SlotRef) : (v.descriptors j).is owner number=false := firstIndex_none h j

theorem lookup_some_is
    (h : lookup v owner number=some i) : (v.descriptors i).is owner number=true :=
  firstIndex_some h

theorem lookup_setSlot_new
    (hfree : lookup v owner number=none) (hnew : fd.is owner number=true) :
    lookup (setSlot i fd v) owner number=some i := by
  cases hl : lookup (setSlot i fd v) owner number with
  | none =>
    have hi := lookup_none_is hl i
    rw [setSlot_descriptors,update_self,hnew] at hi
    cases hi
  | some j =>
    by_cases hj : j=i
    · rw [hj]
    · have hjs := lookup_some_is hl
      rw [setSlot_descriptors,update_of_ne hj,lookup_none_is hfree j] at hjs
      cases hjs

/-- What a change of the tables leaves of a descriptor and of all that a file goes through. -/
structure KeepsDescriptor (v w : VfsState σ) (owner : Nat) (number : Int) (i : SlotRef) : Prop where
  lookup : lookup w owner number=some i
  descriptor : w.descriptors i=v.descriptors i
  openFiles : w.openFiles=v.openFiles
  mounts : w.mounts=v.mounts
  pipes : w.pipes=v.pipes
  backend : w.backend=v.backend

theorem KeepsDescriptor.refl
    (h : Vfs.lookup v owner number=some i) : KeepsDescriptor v v owner number i :=
  ⟨h,rfl,rfl,rfl,rfl,rfl⟩

theorem KeepsDescriptor.trans {w u : VfsState σ}
    (h : KeepsDescriptor v w owner number i) (h' : KeepsDescriptor w u owner number i) :
    KeepsDescriptor v u owner number i :=
  ⟨h'.lookup,h'.descriptor.trans h.descriptor,h'.openFiles.trans h.openFiles,
    h'.mounts.trans h.mounts,h'.pipes.trans h.pipes,h'.backend.trans h.backend⟩

/-- `ensure_standard_streams` leaves every descriptor that is there. -/
theorem KeepsDescriptor.standardStreams (owner' : Nat)
    (h : Vfs.lookup v owner number=some i) :
    KeepsDescriptor v (ensureStandardStreams owner' v) owner number i := by
  refine ensureStandardStreams_rule (P := fun w => KeepsDescriptor v w owner number i) owner' ?_
    (.refl h)
  intro w n j hw hmissing hfree
  refine hw.trans ⟨?_,?_,rfl,rfl,rfl,rfl⟩
  · rw [lookup_setSlot_same,hw.lookup]
    have hold : (w.descriptors j).is owner number=false := by simp [VfsFd.is,hfree]
    rw [hold]
    by_contra hmatch
    rw [Bool.not_eq_false,VfsFd.is] at hmatch
    simp only [Bool.true_and,Bool.and_eq_true,beq_iff_eq] at hmatch
    rw [hmatch.1,hmatch.2,hw.lookup] at hmissing
    cases hmissing
  · have hij : i≠j := by
      rintro rfl
      have hused := (lookup_some hw.lookup).1
      rw [hfree] at hused
      cases hused
    rw [setSlot_descriptors,update_of_ne hij]

theorem ensureStandardStreams_backend (owner : Nat) (v : VfsState σ) :
    (ensureStandardStreams owner v).backend=v.backend :=
  ensureStandardStreams_rule (P := fun w => w.backend=v.backend) owner
    (fun _ _ _ hw _ _ => hw) rfl

theorem pathOps_length_le (v : VfsState σ) (path : Path) :
    (pathOps v path).2.length≤path.length := by
  rw [pathOps]
  split
  · next i relative h =>
    rw [findMount] at h
    split at h
    · cases h
    simp only [Option.some.injEq,Prod.mk.injEq] at h
    rw [← h.2]
    split_ifs
    · rw [List.length_tail,List.length_drop]
      omega
    · rw [List.length_drop]
      omega
  · exact le_rfl

end ConeOS.Vfs
