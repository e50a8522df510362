import ConeOS.Vfs.Descriptor

namespace ConeOS.Vfs

open ConeOS.Library Function

def holdsFile (k : FileRef) (fd : VfsFd) : Bool := fd.used && decide (fd.file=some k)

def holdsEnd (k : PipeRef) (mode : PipeMode) (fd : VfsFd) : Bool :=
  fd.used && decide (fd.pipe=some k ∧ fd.pipeMode=mode)

/-- The counts kept in the open-file and pipe records are the numbers of used descriptors
that hold them, and no owner uses a number twice. -/
structure DescriptorInv {σ : Type} (v : VfsState σ) : Prop where
  distinct : ∀ i j, (v.descriptors i).used=true → (v.descriptors j).used=true →
    (v.descriptors i).owner=(v.descriptors j).owner →
    (v.descriptors i).number=(v.descriptors j).number → i=j
  references : ∀ k, (v.openFiles k).references=tally (holdsFile k) v.descriptors
  fileUsed : ∀ k, (v.openFiles k).used=true ↔ 0<tally (holdsFile k) v.descriptors
  readers : ∀ k, (v.pipes k).readers=tally (holdsEnd k .read) v.descriptors
  writers : ∀ k, (v.pipes k).writers=tally (holdsEnd k .write) v.descriptors
  pipeUsed : ∀ k, (v.pipes k).used=true ↔ 0<(v.pipes k).readers+(v.pipes k).writers

section Fields

variable {σ : Type} (v : VfsState σ)

@[simp] theorem setSlot_descriptors (i : SlotRef) (fd : VfsFd) :
    (setSlot i fd v).descriptors=update v.descriptors i fd := rfl
@[simp] theorem setSlot_openFiles (i : SlotRef) (fd : VfsFd) :
    (setSlot i fd v).openFiles=v.openFiles := rfl
@[simp] theorem setSlot_pipes (i : SlotRef) (fd : VfsFd) :
    (setSlot i fd v).pipes=v.pipes := rfl
@[simp] theorem setSlot_twice (i : SlotRef) (fd fd' : VfsFd) :
    setSlot i fd (setSlot i fd' v)=setSlot i fd v := by
  simp [setSlot]

@[simp] theorem openFileRetainLocked_descriptors (file : Option FileRef) :
    (openFileRetainLocked file v).descriptors=v.descriptors := by
  cases file <;> rfl
@[simp] theorem openFileRetainLocked_pipes (file : Option FileRef) :
    (openFileRetainLocked file v).pipes=v.pipes := by
  cases file <;> rfl
@[simp] theorem openFileReleaseLocked_descriptors (file : Option FileRef) :
    (openFileReleaseLocked file v).descriptors=v.descriptors := by
  unfold openFileReleaseLocked
  cases file
  · rfl
  · dsimp only
    split_ifs <;> rfl
@[simp] theorem openFileReleaseLocked_pipes (file : Option FileRef) :
    (openFileReleaseLocked file v).pipes=v.pipes := by
  unfold openFileReleaseLocked
  cases file
  · rfl
  · dsimp only
    split_ifs <;> rfl

@[simp] theorem pipeAddEnd_descriptors (pipe : Option PipeRef) (mode : PipeMode) :
    (pipeAddEnd pipe mode v).descriptors=v.descriptors := by
  cases pipe <;> cases mode <;> rfl
@[simp] theorem pipeAddEnd_openFiles (pipe : Option PipeRef) (mode : PipeMode) :
    (pipeAddEnd pipe mode v).openFiles=v.openFiles := by
  cases pipe <;> cases mode <;> rfl
@[simp] theorem pipeDropReferenceLocked_descriptors (pipe : Option PipeRef) (mode : PipeMode) :
    (pipeDropReferenceLocked pipe mode v).descriptors=v.descriptors := by
  unfold pipeDropReferenceLocked
  cases pipe
  · rfl
  · dsimp only
    split <;> rfl
@[simp] theorem pipeDropReferenceLocked_openFiles (pipe : Option PipeRef) (mode : PipeMode) :
    (pipeDropReferenceLocked pipe mode v).openFiles=v.openFiles := by
  unfold pipeDropReferenceLocked
  cases pipe
  · rfl
  · dsimp only
    split <;> rfl

theorem openFileRetainLocked_record (file : Option FileRef) (k : FileRef) :
    ((openFileRetainLocked file v).openFiles k).references =
        (v.openFiles k).references+(decide (file=some k)).toNat ∧
      ((openFileRetainLocked file v).openFiles k).used=(v.openFiles k).used := by
  cases file with
  | none => simp [openFileRetainLocked]
  | some j =>
    by_cases h : k=j
    · subst h
      simp [openFileRetainLocked]
    · simp [openFileRetainLocked,h,Ne.symm h]

theorem openFileReleaseLocked_record (file : Option FileRef) (k : FileRef) :
    ((openFileReleaseLocked file v).openFiles k).references =
        (v.openFiles k).references-(decide (file=some k)).toNat ∧
      (((v.openFiles k).used=true ↔ 0<(v.openFiles k).references) →
        (((openFileReleaseLocked file v).openFiles k).used=true ↔
          0<((openFileReleaseLocked file v).openFiles k).references)) := by
  cases file with
  | none => simp [openFileReleaseLocked]
  | some j =>
    by_cases h : k=j
    · subst h
      by_cases h0 : (v.openFiles k).references=0
      · simp [openFileReleaseLocked,h0]
      by_cases h1 : (v.openFiles k).references-1=0
      · simp [openFileReleaseLocked,h0,h1]
      simp only [openFileReleaseLocked,h0,h1,if_false,update_self]
      simp only [decide_true,Bool.toNat_true,true_and]
      intro hu
      rw [hu]
      omega
    · by_cases h0 : (v.openFiles j).references=0
      · simp [openFileReleaseLocked,h0,Ne.symm h]
      · simp [openFileReleaseLocked,h0,h,Ne.symm h]

theorem pipeAddEnd_record (pipe : Option PipeRef) (mode : PipeMode) (k : PipeRef) :
    ((pipeAddEnd pipe mode v).pipes k).readers =
        (v.pipes k).readers+(decide (pipe=some k ∧ mode = .read)).toNat ∧
      ((pipeAddEnd pipe mode v).pipes k).writers =
        (v.pipes k).writers+(decide (pipe=some k ∧ mode = .write)).toNat ∧
      ((pipeAddEnd pipe mode v).pipes k).used=(v.pipes k).used := by
  cases pipe with
  | none => simp [pipeAddEnd]
  | some j =>
    by_cases h : k=j
    · subst h
      cases mode <;> simp [pipeAddEnd]
    · cases mode <;> simp [pipeAddEnd,h,Ne.symm h]

/-- Dropping an end that is counted takes it out of its count, and the pipe stays in use
exactly while an end is left. -/
theorem pipeDropReferenceLocked_record (pipe : Option PipeRef) (mode : PipeMode) (k : PipeRef)
    (hu : (v.pipes k).used=true ↔ 0<(v.pipes k).readers+(v.pipes k).writers) :
    ((pipeDropReferenceLocked pipe mode v).pipes k).readers =
        (v.pipes k).readers-(decide (pipe=some k ∧ mode = .read)).toNat ∧
      ((pipeDropReferenceLocked pipe mode v).pipes k).writers =
        (v.pipes k).writers-(decide (pipe=some k ∧ mode = .write)).toNat ∧
      (((pipeDropReferenceLocked pipe mode v).pipes k).used=true ↔
        0<((pipeDropReferenceLocked pipe mode v).pipes k).readers +
          ((pipeDropReferenceLocked pipe mode v).pipes k).writers) := by
  cases pipe with
  | none => simpa [pipeDropReferenceLocked] using hu
  | some j =>
    by_cases h : k=j
    · subst h
      cases hused : (v.pipes k).used with
      | false =>
        have hz : (v.pipes k).readers=0 ∧ (v.pipes k).writers=0 := by
          rw [hused] at hu
          simp only [Bool.false_eq_true,false_iff,not_lt] at hu
          omega
        simp [pipeDropReferenceLocked,hused,hz.1,hz.2]
      | true =>
        have hpos : 0<(v.pipes k).readers+(v.pipes k).writers := hu.mp hused
        cases mode <;> simp only [pipeDropReferenceLocked,hused,Bool.not_true,Bool.false_eq_true,
          if_false,update_self,reduceCtorEq,false_and,true_and]
        · have hne : ¬((v.pipes k).readers=0 ∧ (v.pipes k).writers=0) := by omega
          simp [hne,hused,hpos]
        all_goals
          split_ifs <;> simp_all
          all_goals omega
    · cases hused : (v.pipes j).used <;>
        simp [pipeDropReferenceLocked,hused,h,Ne.symm h,hu]

end Fields

section Invariant

variable {σ : Type} {v : VfsState σ} {owner : Nat} {number : Int} {i : SlotRef}

/-- Filling a free slot with a descriptor whose objects are already in use. -/
theorem DescriptorInv.acquire (inv : DescriptorInv v) (i : SlotRef) (fd : VfsFd)
    (hfree : (v.descriptors i).used=false) (hfd : fd.used=true)
    (hnew : ∀ j, (v.descriptors j).used=true → (v.descriptors j).owner=fd.owner →
      (v.descriptors j).number≠fd.number)
    (hfile : ∀ k, fd.file=some k → (v.openFiles k).used=true)
    (hpipe : ∀ k, fd.pipe=some k → fd.pipeMode ≠ .none → (v.pipes k).used=true) :
    DescriptorInv (pipeAddEnd fd.pipe fd.pipeMode (openFileRetainLocked fd.file (setSlot i fd v))) := by
  have hout (q : VfsFd → Bool) (hq : ∀ g, g.used=false → q g=false) :
      tally q (update v.descriptors i fd)=tally q v.descriptors+(q fd).toNat := by
    have h := tally_update q v.descriptors i fd
    simpa [hq _ hfree] using h
  have hF (k : FileRef) : tally (holdsFile k) (update v.descriptors i fd) =
      tally (holdsFile k) v.descriptors+(decide (fd.file=some k)).toNat := by
    rw [hout (holdsFile k) (fun g hg => by simp [holdsFile,hg])]
    simp [holdsFile,hfd]
  have hE (k : PipeRef) (m : PipeMode) : tally (holdsEnd k m) (update v.descriptors i fd) =
      tally (holdsEnd k m) v.descriptors+(decide (fd.pipe=some k ∧ fd.pipeMode=m)).toNat := by
    rw [hout (holdsEnd k m) (fun g hg => by simp [holdsEnd,hg])]
    simp [holdsEnd,hfd]
  let w := openFileRetainLocked fd.file (setSlot i fd v)
  have hrec (k : FileRef) := openFileRetainLocked_record (setSlot i fd v) fd.file k
  have hends (k : PipeRef) := pipeAddEnd_record w fd.pipe fd.pipeMode k
  refine ⟨?_,?_,?_,?_,?_,?_⟩
  · intro a b
    simp only [pipeAddEnd_descriptors,openFileRetainLocked_descriptors,setSlot_descriptors,
      update_apply]
    split_ifs with ha hb hb
    · intros; exact ha.trans hb.symm
    · intro _ hu ho hn
      exact absurd hn.symm (hnew b hu ho.symm)
    · intro hu _ ho hn
      exact absurd hn (hnew a hu ho)
    · exact inv.distinct a b
  · intro k
    simp only [pipeAddEnd_descriptors,openFileRetainLocked_descriptors,setSlot_descriptors,
      pipeAddEnd_openFiles]
    rw [(hrec k).1,hF k,setSlot_openFiles,inv.references k]
  · intro k
    simp only [pipeAddEnd_descriptors,openFileRetainLocked_descriptors,setSlot_descriptors,
      pipeAddEnd_openFiles]
    rw [(hrec k).2,hF k,setSlot_openFiles]
    by_cases hk : fd.file=some k
    · simp [hk,hfile k hk]
    · simpa [hk] using inv.fileUsed k
  · intro k
    simp only [pipeAddEnd_descriptors,openFileRetainLocked_descriptors,setSlot_descriptors]
    rw [(hends k).1,hE k .read]
    simpa [w] using inv.readers k
  · intro k
    simp only [pipeAddEnd_descriptors,openFileRetainLocked_descriptors,setSlot_descriptors]
    rw [(hends k).2.1,hE k .write]
    simpa [w] using inv.writers k
  intro k
  rw [(hends k).2.2,(hends k).1,(hends k).2.1]
  have hold : (w.pipes k)=v.pipes k := by simp [w]
  rw [hold]
  by_cases hk : fd.pipe=some k ∧ fd.pipeMode ≠ .none
  · have hu := hpipe k hk.1 hk.2
    have hpos := (inv.pipeUsed k).mp hu
    simp only [hu,true_iff]
    omega
  have hz : (decide (fd.pipe=some k ∧ fd.pipeMode = .read))=false ∧
      (decide (fd.pipe=some k ∧ fd.pipeMode = .write))=false := by
    by_cases hp : fd.pipe=some k
    · have hm : fd.pipeMode = .none := by
        by_contra hm
        exact hk ⟨hp,hm⟩
      simp [hm]
    · simp [hp]
  simpa [hz.1,hz.2] using inv.pipeUsed k

/-- Emptying a used slot gives back what it held. -/
theorem DescriptorInv.closeSlot (inv : DescriptorInv v) (i : SlotRef)
    (hi : (v.descriptors i).used=true) : DescriptorInv (closeSlot i v) := by
  let fd := v.descriptors i
  let blank : VfsFd := { fd with used := false, file := none, pipe := none, pipeMode := .none }
  have hout (q : VfsFd → Bool) (hq : q blank=false) :
      tally q (update v.descriptors i blank)+(q fd).toNat=tally q v.descriptors := by
    have h := tally_update q v.descriptors i blank
    simpa [hq] using h
  have hF (k : FileRef) : tally (holdsFile k) (update v.descriptors i blank) +
      (decide (fd.file=some k)).toNat=tally (holdsFile k) v.descriptors := by
    have h := hout (holdsFile k) (by simp [holdsFile,blank])
    have hq : holdsFile k fd=(decide (fd.file=some k)) := by simp [holdsFile,fd,hi]
    rwa [hq] at h
  have hE (k : PipeRef) (m : PipeMode) :
      tally (holdsEnd k m) (update v.descriptors i blank) +
        (decide (fd.pipe=some k ∧ fd.pipeMode=m)).toNat=tally (holdsEnd k m) v.descriptors := by
    have h := hout (holdsEnd k m) (by simp [holdsEnd,blank])
    have hq : holdsEnd k m fd=(decide (fd.pipe=some k ∧ fd.pipeMode=m)) := by
      simp [holdsEnd,fd,hi]
    rwa [hq] at h
  let u := pipeDropReferenceLocked fd.pipe fd.pipeMode v
  have hdrop (k : PipeRef) := pipeDropReferenceLocked_record v fd.pipe fd.pipeMode k (inv.pipeUsed k)
  have hrel (k : FileRef) := openFileReleaseLocked_record u fd.file k
  have hfiles : u.openFiles=v.openFiles := by simp [u]
  have hbase (k : FileRef) : (u.openFiles k).used=true ↔ 0<(u.openFiles k).references := by
    rw [hfiles,inv.references k]
    exact inv.fileUsed k
  have hdesc : (Vfs.closeSlot i v).descriptors=update v.descriptors i blank := by
    simp [Vfs.closeSlot,blank,fd]
  have hpipes : (Vfs.closeSlot i v).pipes=u.pipes := by simp [Vfs.closeSlot,u,fd]
  have hopen : (Vfs.closeSlot i v).openFiles=(openFileReleaseLocked fd.file u).openFiles := rfl
  have hrefs (k : FileRef) : ((openFileReleaseLocked fd.file u).openFiles k).references =
      tally (holdsFile k) (update v.descriptors i blank) := by
    have h := hF k
    rw [(hrel k).1,hfiles,inv.references k]
    omega
  refine ⟨?_,?_,?_,?_,?_,?_⟩
  · intro a b
    rw [hdesc]
    simp only [update_apply]
    split_ifs with ha hb hb
    · intro h; simp at h
    · intro h; simp at h
    · intro _ h; simp at h
    · exact inv.distinct a b
  · intro k
    rw [hopen,hdesc]
    exact hrefs k
  · intro k
    rw [hopen,hdesc,← hrefs k]
    exact (hrel k).2 (hbase k)
  · intro k
    have h := hE k .read
    rw [hpipes,hdesc,(hdrop k).1,inv.readers k]
    omega
  · intro k
    have h := hE k .write
    rw [hpipes,hdesc,(hdrop k).2.1,inv.writers k]
    omega
  · intro k
    rw [hpipes]
    exact (hdrop k).2.2

theorem lookup_some (h : lookup v owner number=some i) :
    (v.descriptors i).used=true ∧ (v.descriptors i).owner = owner ∧
      (v.descriptors i).number=number := by
  have hi := firstIndex_some h
  simpa [and_assoc] using hi

theorem lookup_none (h : lookup v owner number=none) (j : SlotRef)
    (hj : (v.descriptors j).used=true) (ho : (v.descriptors j).owner = owner) :
    (v.descriptors j).number≠number := by
  have hi := firstIndex_none h j
  simpa [hj,ho] using hi

theorem allocateSlot_some (h : allocateSlot v=some i) :
    (v.descriptors i).used=false := by
  have hi := firstIndex_some h
  simpa using hi

/-- What a standard stream in a free slot keeps, `ensure_standard_streams` keeps. -/
theorem ensureStandardStreams_rule {P : VfsState σ → Prop} (owner : Nat)
    (hset : ∀ (w : VfsState σ) (n : Nat) (i : SlotRef), P w → lookup w owner n=none →
      (w.descriptors i).used=false →
      P (setSlot i ⟨true,owner,n,standardName n,none,.console,none,.none⟩ w))
    (h : P v) : P (ensureStandardStreams owner v) := by
  have hfrom : ∀ (ns : List Nat) (w : VfsState σ), P w → P (ensureStandardFrom owner ns w) := by
    intro ns
    induction ns with
    | nil => exact fun _ hw => hw
    | cons n ns ih =>
      intro w hw
      rw [ensureStandardFrom,ensureStandardStream]
      cases hl : lookup w owner n with
      | some i => exact ih w hw
      | none =>
        cases hs : allocateSlot w with
        | none => exact hw
        | some i => exact ih _ (hset w n i hw hl (allocateSlot_some hs))
  exact hfrom [0,1,2] v h

theorem freeNumber_some {first n : Nat} (h : freeNumber v owner first=some n) :
    lookup v owner n=none := by
  have hn := List.find?_some h
  simpa using hn

theorem DescriptorInv.fileOf (inv : DescriptorInv v) (i : SlotRef)
    (hi : (v.descriptors i).used=true) (k : FileRef) (hk : (v.descriptors i).file=some k) :
    (v.openFiles k).used=true :=
  (inv.fileUsed k).mpr (tally_pos (i := i) (by simp [holdsFile,hi,hk]))

theorem DescriptorInv.pipeOf (inv : DescriptorInv v) (i : SlotRef)
    (hi : (v.descriptors i).used=true) (k : PipeRef) (hk : (v.descriptors i).pipe=some k)
    (hm : (v.descriptors i).pipeMode ≠ .none) : (v.pipes k).used=true := by
  apply (inv.pipeUsed k).mpr
  rw [inv.readers k,inv.writers k]
  cases hmode : (v.descriptors i).pipeMode with
  | none => exact absurd hmode hm
  | read =>
    have h : 0<tally (holdsEnd k .read) v.descriptors :=
      tally_pos (i := i) (by simp [holdsEnd,hi,hk,hmode])
    omega
  | write =>
    have h : 0<tally (holdsEnd k .write) v.descriptors :=
      tally_pos (i := i) (by simp [holdsEnd,hi,hk,hmode])
    omega

theorem DescriptorInv.copySlot (inv : DescriptorInv v) (target source : SlotRef) (fd : VfsFd)
    (hfree : (v.descriptors target).used=false) (hs : (v.descriptors source).used=true)
    (hfd : fd.used=true) (hfile : fd.file=(v.descriptors source).file)
    (hpipe : fd.pipe=(v.descriptors source).pipe)
    (hmode : fd.pipeMode=(v.descriptors source).pipeMode)
    (hnew : ∀ j, (v.descriptors j).used=true → (v.descriptors j).owner=fd.owner →
      (v.descriptors j).number≠fd.number) :
    DescriptorInv
      (pipeAddEnd fd.pipe fd.pipeMode (openFileRetainLocked fd.file (setSlot target fd v))) := by
  apply inv.acquire target fd hfree hfd hnew
  · intro k hk
    exact inv.fileOf source hs k (hfile ▸ hk)
  · intro k hk hm
    exact inv.pipeOf source hs k (hpipe ▸ hk) (hmode ▸ hm)

theorem pipeRetainReference_eq (pipe : Option PipeRef) (mode : PipeMode)
    (h : ∀ k, pipe=some k → mode ≠ .none → (v.pipes k).used=true) :
    pipeRetainReference pipe mode v=pipeAddEnd pipe mode v := by
  cases pipe with
  | none => cases mode <;> rfl
  | some k =>
    cases mode with
    | none => simp [pipeRetainReference,pipeAddEnd]
    | read => simp [pipeRetainReference,h k rfl (by simp)]
    | write => simp [pipeRetainReference,h k rfl (by simp)]

end Invariant

section Steps

variable {σ : Type}

theorem DescriptorInv.ensureStandardStreams {v : VfsState σ} (inv : DescriptorInv v) (owner : Nat) :
    DescriptorInv (ensureStandardStreams owner v) := by
  refine ensureStandardStreams_rule owner ?_ inv
  intro w n i inv hmissing hfree
  have h := inv.acquire i ⟨true,owner,n,standardName n,none,.console,none,.none⟩ hfree rfl
    (fun j hu ho => lookup_none hmissing j hu ho) (by simp) (by simp)
  simpa only [pipeAddEnd,openFileRetainLocked] using h

theorem DescriptorInv.withBackend {v : VfsState σ} (inv : DescriptorInv v) (b : σ) :
    DescriptorInv { v with backend := b } :=
  ⟨inv.distinct,inv.references,inv.fileUsed,inv.readers,inv.writers,inv.pipeUsed⟩

/-- A new open file in an unused record, held by a new descriptor. -/
theorem DescriptorInv.installFile {v : VfsState σ} (inv : DescriptorInv v) (i : SlotRef)
    (k : FileRef) (fd : VfsFd) (hfree : (v.descriptors i).used=false)
    (hk : (v.openFiles k).used=false) (hfd : fd.used=true) (hfile : fd.file=some k)
    (hpipe : fd.pipe=none)
    (hnew : ∀ j, (v.descriptors j).used=true → (v.descriptors j).owner=fd.owner →
      (v.descriptors j).number≠fd.number) :
    DescriptorInv
      (setSlot i fd { v with openFiles := update v.openFiles k ⟨true,1,0⟩ }) := by
  have hzero : tally (holdsFile k) v.descriptors=0 := by
    by_contra h
    have hu := (inv.fileUsed k).mpr (Nat.pos_of_ne_zero h)
    simp [hk] at hu
  -- the record is counted once more exactly where `acquire` counts it
  have base := inv.acquire i { fd with file := none } hfree hfd hnew (by simp) (by simp [hpipe])
  have hF (j : FileRef) : tally (holdsFile j) (update v.descriptors i fd) =
      tally (holdsFile j) v.descriptors+(decide (fd.file=some j)).toNat := by
    have h := tally_update (holdsFile j) v.descriptors i fd
    simpa [holdsFile,hfree,hfd] using h
  have hE (j : PipeRef) (m : PipeMode) : tally (holdsEnd j m) (update v.descriptors i fd) =
      tally (holdsEnd j m) v.descriptors := by
    have h := tally_update (holdsEnd j m) v.descriptors i fd
    simpa [holdsEnd,hfree,hpipe] using h
  refine ⟨?_,?_,?_,?_,?_,inv.pipeUsed⟩
  · intro a b
    have h := base.distinct a b
    simp only [pipeAddEnd_descriptors,openFileRetainLocked_descriptors,setSlot_descriptors,
      update_apply] at h ⊢
    split_ifs at h ⊢ <;> exact h
  · intro j
    simp only [setSlot_descriptors,setSlot_openFiles,hF j,update_apply]
    split_ifs with hj
    · subst hj
      simp [hzero,hfile]
    have hne : fd.file≠some j := by
      rw [hfile]
      simpa using Ne.symm hj
    simpa [hne] using inv.references j
  · intro j
    simp only [setSlot_descriptors,setSlot_openFiles,hF j,update_apply]
    split_ifs with hj
    · subst hj
      simp [hfile]
    have hne : fd.file≠some j := by
      rw [hfile]
      simpa using Ne.symm hj
    simpa [hne] using inv.fileUsed j
  · intro j
    simp only [setSlot_descriptors,setSlot_pipes,hE]
    exact inv.readers j
  · intro j
    simp only [setSlot_descriptors,setSlot_pipes,hE]
    exact inv.writers j

end Steps

end ConeOS.Vfs
