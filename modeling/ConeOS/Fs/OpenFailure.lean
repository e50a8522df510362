import ConeOS.Fs.RootFs
import ConeOS.Vfs.Duplicate

namespace ConeOS.Fs

open ConeOS.Library Function
open ConeOS.Vfs

section Trace

variable {σ τ : Type}

/-- What a failed open may not change: what is seen of the file systems, the descriptors from
number 3 on, the open files and the other tables. A record that was not in use may be cleared. -/
structure Untouched (view : σ → τ) (v w : VfsState σ) : Prop where
  view : view w.backend=view v.backend
  mounts : w.mounts=v.mounts
  pipes : w.pipes=v.pipes
  descriptors : ∀ i, ((v.descriptors i).used=true ∧ 3≤(v.descriptors i).number) ∨
    ((w.descriptors i).used=true ∧ 3≤(w.descriptors i).number) →
    w.descriptors i=v.descriptors i
  openFiles : ∀ k, w.openFiles k=v.openFiles k ∨
    ((v.openFiles k).used=false ∧ w.openFiles k=⟨false,0,0⟩)

variable {view : σ → τ} {u v w : VfsState σ}

theorem Untouched.refl (v : VfsState σ) : Untouched view v v :=
  ⟨rfl,rfl,rfl,fun _ _ => rfl,fun _ => .inl rfl⟩

theorem Untouched.trans (h : Untouched view u v) (h' : Untouched view v w) :
    Untouched view u w := by
  refine ⟨h'.view.trans h.view,h'.mounts.trans h.mounts,h'.pipes.trans h.pipes,?_,?_⟩
  · intro i hi
    -- whichever end holds the number, the state between holds it as well
    rcases hi with hi | hi
    · have huv := h.descriptors i (.inl hi)
      rw [← huv] at hi ⊢
      exact h'.descriptors i (.inl hi)
    · have hvw := h'.descriptors i (.inr hi)
      rw [hvw] at hi ⊢
      exact h.descriptors i (.inr hi)
  · intro k
    rcases h'.openFiles k with hk | ⟨hunused,hk⟩
    · rw [hk]
      exact h.openFiles k
    rcases h.openFiles k with hk' | ⟨hunused',-⟩
    · rw [hk'] at hunused
      exact .inr ⟨hunused,hk⟩
    · exact .inr ⟨hunused',hk⟩

theorem Untouched.withBackend (v : VfsState σ) {b : σ} (h : view b=view v.backend) :
    Untouched view v { v with backend := b } :=
  ⟨h,rfl,rfl,fun _ _ => rfl,fun _ => .inl rfl⟩

theorem Untouched.standardStream (v : VfsState σ) {i : SlotRef} {fd : VfsFd}
    (hfree : (v.descriptors i).used=false) (hnumber : fd.number<3) :
    Untouched view v (setSlot i fd v) := by
  refine ⟨rfl,rfl,rfl,?_,fun _ => .inl rfl⟩
  intro j hj
  by_cases hji : j=i
  · subst hji
    rw [setSlot_descriptors,update_self] at hj
    rcases hj with ⟨hused,-⟩ | ⟨-,hlow⟩
    · rw [hfree] at hused
      cases hused
    · omega
  · rw [setSlot_descriptors,update_of_ne hji]

theorem Untouched.ensureStandardFrom (owner : Nat) {ns : List Nat} (hns : ∀ n ∈ ns, n<3)
    (v : VfsState σ) : Untouched view v (ensureStandardFrom owner ns v) := by
  induction ns generalizing v with
  | nil => exact .refl v
  | cons n ns ih =>
    have hn : ∀ m ∈ ns, m<3 := fun m hm => hns m (List.mem_cons_of_mem n hm)
    rw [Vfs.ensureStandardFrom,ensureStandardStream]
    cases hl : lookup v owner n with
    | some i => exact ih hn v
    | none =>
      cases hs : allocateSlot v with
      | none => exact .refl v
      | some i =>
        refine (Untouched.standardStream v (allocateSlot_some hs) ?_).trans (ih hn _)
        have := hns n List.mem_cons_self
        dsimp only
        omega

theorem Untouched.ensureStandardStreams (owner : Nat) (v : VfsState σ) :
    Untouched view v (ensureStandardStreams owner v) :=
  Untouched.ensureStandardFrom owner (by decide) v

theorem Untouched.takeAndRelease (v : VfsState σ) {k : FileRef}
    (hunused : (v.openFiles k).used=false) :
    Untouched view v (openFileReleaseLocked (some k)
      { v with openFiles := update v.openFiles k ⟨true,1,0⟩ }) := by
  have heq : openFileReleaseLocked (some k)
      { v with openFiles := update v.openFiles k ⟨true,1,0⟩ } =
        { v with openFiles := update v.openFiles k ⟨false,0,0⟩ } := by
    simp [openFileReleaseLocked]
  rw [heq]
  refine ⟨rfl,rfl,rfl,fun _ _ => rfl,?_⟩
  intro j
  by_cases hj : j=k
  · subst hj
    exact .inr ⟨hunused,update_self ..⟩
  · exact .inl (update_of_ne hj ..)

end Trace

section Opening

variable {σ τ : Type} {view : σ → τ} {v : VfsState σ} {owner : Nat} {name : Path}
  {device : DevfsDevice}

theorem openDescriptor_untouched
    (h : (openDescriptor owner name device v).value = -1) :
    Untouched view v (openDescriptor owner name device v).state := by
  rw [openDescriptor] at h ⊢
  cases hn : freeNumber v owner 3 with
  | none => exact .refl v
  | some number =>
    rw [hn] at h
    cases hf : allocateOpenFileLocked v with
    | mk file w =>
      cases file with
      | none =>
        rw [allocateOpenFileLocked_none hf]
        cases allocateSlot v <;> exact .refl v
      | some k =>
        obtain ⟨hunused,rfl⟩ := allocateOpenFileLocked_some hf
        cases hs : allocateSlot v with
        | none => exact .takeAndRelease v hunused
        | some i =>
          rw [hf,hs] at h
          dsimp only at h
          omega

/-- What the open takes once the file is there. -/
def DescriptorLeft (owner : Nat) (v : VfsState σ) : Prop :=
  let w := ensureStandardStreams owner v
  (freeNumber w owner 3).isSome ∧ (allocateSlot w).isSome ∧ (allocateOpenFileLocked w).1.isSome

theorem ensureStandardFrom_backend (owner : Nat) (ns : List Nat) (v : VfsState σ) (b : σ) :
    ensureStandardFrom owner ns { v with backend := b } =
      { ensureStandardFrom owner ns v with backend := b } := by
  induction ns generalizing v with
  | nil => rfl
  | cons n ns ih =>
    simp only [ensureStandardFrom,ensureStandardStream,lookup,allocateSlot]
    cases firstIndex (fun i => (v.descriptors i).used && (v.descriptors i).owner == owner &&
        (v.descriptors i).number == (n : Int)) with
    | some i => exact ih v
    | none =>
      cases firstIndex (fun i => !(v.descriptors i).used) with
      | none => rfl
      | some i => exact ih (setSlot i _ v)

theorem openDescriptor_fails (b : σ) : (openDescriptor owner name device
    (ensureStandardStreams owner { v with backend := b })).value = -1 ↔
      ¬DescriptorLeft owner v := by
  rw [ensureStandardStreams,ensureStandardFrom_backend,DescriptorLeft,ensureStandardStreams]
  generalize ensureStandardFrom owner [0,1,2] v=w
  simp only [openDescriptor,freeNumber,lookup,allocateSlot,allocateOpenFileLocked]
  cases (List.range' 3 (vfsMaxFds-3)).find? (fun n : Nat => (firstIndex (fun i =>
      (w.descriptors i).used && (w.descriptors i).owner == owner &&
        (w.descriptors i).number == (n : Int))).isNone) with
  | none => simp
  | some number =>
    have hne : (number : Int)≠-1 := by omega
    cases firstIndex (fun i => !(w.descriptors i).used) <;>
      cases firstIndex (fun k => !(w.openFiles k).used) <;> simp [hne]

/-- What the create of a file system does for one path that it does not have: with `Room` the
file is there, and otherwise the call fails, after `Stray` with something left to see. -/
def CreatesAt (fs : FsOps σ) (view : σ → τ) (path : Path) (Room Stray : σ → Prop) : Prop :=
  ∀ b, fs.stat path b=none →
    (Room b ∧ ¬Stray b ∧ (fs.create path b).1=true ∧ view (fs.create path b).2≠view b) ∨
    (¬Room b ∧ (fs.create path b).1=false ∧ (Stray b ↔ view (fs.create path b).2≠view b))

/-- The file is to be created, and the file system leaves a part of it, or makes it while there
is no number, descriptor or open file left. -/
def LeavesTrace (fs : FsOps σ) (cwd : Option Path) (owner : Nat) (name path : Path)
    (create : Bool) (Room Stray : σ → Prop) (v : VfsState σ) : Prop :=
  create=true ∧ name≠[] ∧ name.length<ramfsNameSize ∧
    (resolvePath cwd name ramfsNameSize).isSome=true ∧ fs.stat path v.backend=none ∧
    (Stray v.backend ∨ Room v.backend ∧ ¬DescriptorLeft owner v)

end Opening

/-- The files of ramfs.c with their contents, its directories, and the other file systems. -/
def rootView {φ : Type} (b : RootFs φ) : FileMap × List Path × φ :=
  (b.ramfs.map,b.ramfs.directories,b.others)

theorem ramfs_createsAt {φ : Type} (others : FsKind → FileOps φ) (alloc : Kmalloc) {path : Path}
    (hname : path.length<ramfsNameSize) :
    CreatesAt (openOps others alloc .ramfs) rootView path
      (fun b => (∃ i, (b.ramfs.files i).used=false) ∧ alloc.isSome=true)
      (fun b => (∃ i, (b.ramfs.files i).used=false) ∧ alloc=none) := by
  intro b hstat
  have hfind : findFile path b.ramfs=none := Option.map_eq_none_iff.mp hstat
  have hseen : ∀ {r : Ramfs} {i}, findFile path r=some i →
      rootView { b with ramfs := r }≠rootView b := by
    intro r i hi heq
    have hmap := congrFun (congrArg Prod.fst heq) path
    simp [rootView,Ramfs.map,hi,hfind] at hmap
  have heffect := ramfsWrite_effect alloc path [] b.ramfs
  have hcreate : (openOps others alloc .ramfs).create path b =
    ((ramfsWrite alloc path [] b.ramfs).1, { b with ramfs := (ramfsWrite alloc path [] b.ramfs).2 }) :=
      rfl
  rw [hcreate]
  generalize ramfsWrite alloc path [] b.ramfs=w at heffect
  cases heffect with
  | tooLong hlong => simp at hlong
  | areaMissing _ hfound | replaced _ hfound =>
    rw [hfind] at hfound
    cases hfound
  | full _ _ hfull => exact .inr ⟨by simp [hfull],rfl,by simp [hfull]⟩
  | @abandoned i _ _ hfree halloc =>
    have hview := hseen (findFile_setFile_new (i := i)
      (f := (b.ramfs.files i).claimed path none) hfind rfl (take_name hname))
    exact .inr ⟨by simp [halloc],rfl,iff_of_true ⟨⟨i,hfree⟩,halloc⟩ hview⟩
  | @created i data _ _ hfree halloc =>
    have hview := hseen (findFile_setFile_new (i := i)
      (f := ((b.ramfs.files i).claimed path alloc).written [] data) hfind rfl (take_name hname))
    exact .inl ⟨⟨⟨i,hfree⟩,by rw [halloc]; rfl⟩,by simp [halloc],rfl,hview⟩

section Samples

/-- The files of ramfs.c that can be listed. -/
def listedFiles (b : RootFs Unit) : List (Path × Nat) := (ramfsList ramfsMaxFiles b.ramfs).1

/-- Memory for the contents of a new file. -/
def someArea : Kmalloc := some fun _ => 0

/-- Task 1 with `/hello.txt` open under every number from 3 to `last`. -/
def openUpTo (last : Nat) : VfsState (RootFs Unit) :=
  { descriptors := fun i =>
      if i.val<3 then ⟨true,1,i.val,standardName i.val,none,.console,none,.none⟩
      else if i.val≤last then
        ⟨true,1,i.val,"/hello.txt".toUTF8.toList,some i,.none,none,.none⟩
      else blankFd
    openFiles := fun k => if 3≤k.val ∧ k.val≤last then ⟨true,1,0⟩ else ⟨false,0,0⟩
    mounts := fun _ => ⟨false,false,[],[],.ramfs⟩
    pipes := fun _ => ⟨false,0,0,0,0,0,fun _ => 0⟩
    backend := ⟨ramfsInit someArea,()⟩ }

def helloPath : Path := "/hello.txt".toUTF8.toList
def newFile : Path := "/new".toUTF8.toList

end Samples

end ConeOS.Fs
