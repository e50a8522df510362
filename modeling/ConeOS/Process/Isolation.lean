import ConeOS.Process.Lifecycle

namespace ConeOS.Process

open ConeOS.Library ConeOS.Memory Kernel Function List

section EagerCopy

variable {s : Kernel} {m : Machine}

theorem Paired.follows (b : Bookkeeping s) (h : Paired s s.machine) (ops : List Op)
    (hapart : Kernel.Along (fun s op => s.growsApart op=true) ops s) :
    visible (Kernel.run ops s).1=(Kernel.run ops s).2.foldl Event.apply (visible s) := by
  induction ops generalizing s with
  | nil => rfl
  | cons op ops ih =>
    obtain ⟨n',hn,h',hview⟩ := h.step b op (Or.inl rfl)
    have hmachine : (s.step op).1.machine=n' := congrArg Kernel.machine hn
    rw [← hmachine] at h'
    rw [Kernel.run]
    dsimp only
    rw [ih (b.step op) h' hapart.2,foldl_append,hview hapart.1]

theorem visible_boot (m : Machine) : visible (Kernel.boot m)=fun _ _ => none := by
  funext id a
  unfold visible Kernel.findTask Kernel.boot
  rw [find?_singleton]
  split_ifs <;> simp

/-- Forks that share pages until one side writes are forks that copy every page at once, along
every run in which no break grows over a page that waits for its copy. -/
theorem fork_refines_eager_copy (m : Machine) (h : Booted m) (ops : List Op)
    (hapart : Kernel.Along (fun s op => s.growsApart op=true) ops (Kernel.boot m)) :
    visible (Kernel.run ops (Kernel.boot m)).1 =
      (Kernel.run ops (Kernel.boot m)).2.foldl Event.apply (fun _ _ => none) := by
  have hview := (h.paired (SameButFree.refl m)).follows (Bookkeeping.boot m) ops hapart
  rw [visible_boot] at hview
  exact hview

/-- A store to the heap of the sample program; the first attempt faults. -/
def heapStore (task : Nat) (byte : UInt8) : List Op :=
  List.replicate 2 (.access task .write 0x401008 byte (fun _ => []))

/-- The sample program stores to its heap and forks; the page is then shared. -/
def sampleShared : List Op :=
  [.spawn 0 idleLaunch [0x69] [] (some sampleElf),.brk 1 0x401010] ++ heapStore 1 5 ++
    [.fork 1 idleLaunch true (fun _ => [])]

/-- The child stores to the shared page and gets a copy of it. -/
def sampleFork : List Op := sampleShared ++ heapStore 2 7

theorem sampleFork_eager : Kernel.Along (fun s op => s.growsApart op=true) sampleFork
      (Kernel.boot (sampleMachine 0)) ∧
    visible (Kernel.run sampleFork (Kernel.boot (sampleMachine 0))).1 =
      (Kernel.run sampleFork (Kernel.boot (sampleMachine 0))).2.foldl Event.apply
        (fun _ _ => none) := by
  have hbrk : ((Kernel.boot (sampleMachine 0)).step (.spawn 0 idleLaunch [0x69] []
      (some sampleElf))).1.growsApart (.brk 1 0x401010)=true := by decide +kernel
  have hapart : Kernel.Along (fun s op => s.growsApart op=true) sampleFork
      (Kernel.boot (sampleMachine 0)) := ⟨rfl,hbrk,rfl,rfl,rfl,rfl,rfl,trivial⟩
  exact ⟨hapart,fork_refines_eager_copy _ (sampleMachine_booted 0) _ hapart⟩

end EagerCopy

section Accounts

variable {s : Kernel} {m : Machine}

/-- The count of a mapped page is the number of its mappings, and every page in use is mapped,
the kernel's own or a table of some space. -/
def Kernel.Accounted (s : Kernel) (p : Nat) : Prop :=
  (0 < mappings s.machine (ownedRoots s.tasks).toFinset p → s.machine.pmm.bitmap p=true ∧
      s.machine.pmm.pageReferences p=mappings s.machine (ownedRoots s.tasks).toFinset p) ∧
    (managed s.machine.pmm p=true → s.machine.pmm.bitmap p=true →
      0 < mappings s.machine (ownedRoots s.tasks).toFinset p ∨ s.machine.kernelPages p=true ∨
        ∃ r ∈ ownedRoots s.tasks, ∃ path, ValidPath path ∧ tableAt s.machine r path=some p)

theorem WellKept.accounted (hs : WellKept s) (p : Nat) : s.Accounted p := by
  obtain ⟨label,⟨inv,-⟩,-⟩ := hs.paired.inStep
  dsimp only at inv
  constructor
  · intro hpos
    have hmapped : ¬ ∀ x ∈ (ownedRoots s.tasks).toFinset ×ˢ Finset.range userPages,
        leafPage s.machine x.1 x.2≠some p :=
      fun hall => Nat.ne_of_gt hpos (occurrences_eq_zero.mpr hall)
    push Not at hmapped
    obtain ⟨⟨r,v⟩,hin,hleaf⟩ := hmapped
    rw [Finset.mem_product,Finset.mem_range] at hin
    obtain ⟨e,he,rfl⟩ := Option.map_eq_some_iff.mp hleaf
    obtain ⟨hm,hbit,hlabel,-⟩ := inv.bitmap_of_leaf hin.1 hin.2 he
    have hkernel : ¬ s.machine.kernelPages (addressPage e)=true := by
      intro hk
      exact absurd (inv.kernelHeld hk).2 (Nat.ne_of_gt hpos)
    refine ⟨hbit,?_⟩
    rw [(inv.counted hm).1,total,tag,if_pos hlabel,kernelHeld,if_neg hkernel]
    omega
  · intro hm hbit
    have hpos := (inv.counted hm).2.mp hbit
    rw [total,tag,kernelHeld] at hpos
    by_cases hl : label p=none
    · rw [if_pos hl] at hpos
      split_ifs at hpos with hk
      · exact Or.inr (Or.inl hk)
      · exact Or.inl (by omega)
    · obtain ⟨⟨r,path⟩,hlabel⟩ := Option.ne_none_iff_exists'.mp hl
      have hr := inv.forest.owner hlabel
      have hv := inv.forest.valid hlabel
      exact Or.inr (Or.inr ⟨r,mem_toFinset.mp hr,path,hv,
        (inv.forest.tableAt_iff hr hv).mpr hlabel⟩)

/-- After every run no page is lost, freed too early or counted wrongly. -/
theorem page_references_exact (m : Machine) (h : Booted m) (ops : List Op) (p : Nat) :
    (Kernel.run ops (Kernel.boot m)).1.Accounted p :=
  (h.run ops).accounted p

theorem sampleFork_accounted :
    (Kernel.run sampleFork (Kernel.boot (sampleMachine 0))).1.Accounted 5 :=
  page_references_exact _ (sampleMachine_booted 0) sampleFork 5

/-- A page that user code may write to is mapped at one address of one space. -/
def Kernel.WritesApart (s : Kernel) : Prop :=
  ∀ t ∈ s.tasks, ∀ u ∈ s.tasks, t.ownsSpace=true → u.ownsSpace=true →
    ∀ a c, a<2 ^ 47 → c<2 ^ 47 → ∀ x f y g, vmmSpaceQuery t.space a s.machine=some (x,f) →
      vmmSpaceQuery u.space c s.machine=some (y,g) → hasFlag f vmmWritable=true →
      y/4096=x/4096 → u=t ∧ c/4096=a/4096

theorem WellKept.writesApart (hs : WellKept s) : s.WritesApart := by
  intro t ht u hu hto huo a c ha hc x f y g hx hy hw hpage
  have hrt := Paired.root_mem ht hto
  have hru := Paired.root_mem hu huo
  rw [hs.paired.inStep.query hrt ha] at hx
  rw [hs.paired.inStep.query hru hc] at hy
  obtain ⟨e,he,hxe⟩ := Option.map_eq_some_iff.mp hx
  obtain ⟨w,hw',hyw⟩ := Option.map_eq_some_iff.mp hy
  cases hxe
  cases hyw
  rw [(queryFlags_flags e).2.1] at hw
  rw [physical_page,physical_page] at hpage
  obtain ⟨-,-,hapart⟩ := hs.paired.inStep
  obtain ⟨hroot,hv⟩ := hapart hrt (vpn_lt ha) he hw hru (vpn_lt hc) hw' hpage
  exact ⟨ownedRoots_inj hs.paired.nodup ht hu hto huo hroot,hv⟩

/-- After every run no page is writable in one place and mapped in another. -/
theorem writable_pages_private (m : Machine) (h : Booted m) (ops : List Op) :
    (Kernel.run ops (Kernel.boot m)).1.WritesApart :=
  (h.run ops).writesApart

theorem sampleFork_writesApart :
    (Kernel.run sampleFork (Kernel.boot (sampleMachine 0))).1.WritesApart :=
  writable_pages_private _ (sampleMachine_booted 0) sampleFork

/-- After every run tasks and process records belong together. -/
theorem process_table_consistent (m : Machine) (ops : List Op) :
    Bookkeeping (Kernel.run ops (Kernel.boot m)).1 :=
  (Bookkeeping.boot m).run ops

end Accounts

section Strangers

variable {s : Kernel} {n : Machine} {id : Nat}

/-- The task whose memory an event changes. -/
def Event.target : Event → Nat
  | .forked _ child => child
  | .stored task _ _ => task
  | .filled task _ => task
  | .zeroed task _ _ => task
  | .unmapped task _ _ => task
  | .loaded task _ => task
  | .ended task => task

/-- The task that acts, if it is one of those that the kernel schedules. -/
def Op.actor : Op → Option Nat
  | .kernel _ => none
  | .kernelTask _ => none
  | .spawn current _ _ _ _ => some current
  | .exec current _ _ _ => some current
  | .fork current _ _ _ => some current
  | .exit current _ _ => some current
  | .yield current _ => some current
  | .waitpid current _ _ => some current
  | .access current _ _ _ _ => some current
  | .copyToUser current _ _ => some current
  | .brk current _ => some current
  | .mmap current _ _ _ _ => some current
  | .munmap current _ _ => some current

theorem foldl_apply_other (events : List Event) (v : View) (h : ∀ e ∈ events, e.target≠id) :
    events.foldl Event.apply v id=v id := by
  induction events generalizing v with
  | nil => rfl
  | cons e events ih =>
    rw [foldl_cons,ih _ (fun e he => h e (mem_cons_of_mem _ he))]
    have hne := (h e mem_cons_self).symm
    cases e <;> exact update_of_ne hne _ _

theorem pageFault_targets (current : Nat) (kind : Access) (address : Nat) (present : Bool)
    (release : Nat → List Nat) :
    ∀ e ∈ (pageFault current kind address present release s).2, e.target=current := by
  intro e he
  rw [pageFault] at he
  dsimp only at he
  split_ifs at he
  · cases he
  all_goals
    rw [mem_singleton.mp he]
    rfl

/-- An operation changes the memory of the task that acts or of the one it starts. -/
theorem step_targets (op : Op) :
    ∀ e ∈ (s.step op).2, op.actor=some e.target ∨ e.target=s.nextTaskId := by
  intro e he
  cases op with
  | kernel => cases he
  | kernelTask => cases he
  | spawn current work path argument file =>
    rw [Kernel.step] at he
    split_ifs at he
    · cases he
    rcases processSpawn_cases current work path argument file s with ⟨x,m,hx,heq⟩ |
      ⟨i,r,m,space,-,-,-,-,-,-,heq⟩
    · simp only [heq,if_pos hx] at he
      cases he
    · simp only [heq,if_neg (by omega : ¬ (s.nextTaskId : Int)<0)] at he
      rw [mem_singleton.mp he]
      exact Or.inr rfl
  | fork current work vfsForked release =>
    rw [Kernel.step] at he
    split_ifs at he
    · cases he
    rcases processFork_cases current work vfsForked release s with ⟨m,heq⟩ | ⟨m,space,-,heq⟩ |
      ⟨j,parent,parentSpace,i,r,m,space,-,-,-,-,-,-,-,heq⟩
    · rw [heq] at he
      cases he
    · rw [heq] at he
      cases he
    · simp only [heq,if_neg (by omega : ¬ (s.nextTaskId : Int)<0)] at he
      rw [mem_singleton.mp he]
      exact Or.inr rfl
  | access current kind address byte release =>
    left
    rw [Op.actor,Option.some.injEq]
    rw [Kernel.step] at he
    split_ifs at he
    · cases he
    unfold userAccess at he
    split at he
    · cases he
    split at he
    · rw [mem_singleton.mp he]
      rfl
    split at he
    · exact (pageFault_targets _ _ _ _ _ e he).symm
    split_ifs at he
    · exact (pageFault_targets _ _ _ _ _ e he).symm
    · rw [mem_singleton.mp he]
      rfl
    · cases he
  | brk current requested =>
    left
    rw [Kernel.step] at he
    split_ifs at he
    · cases he
    dsimp only at he
    rw [brkEvents] at he
    split at he
    · cases he
    split_ifs at he
    · cases he
    all_goals
      rw [mem_singleton.mp he]
      rfl
  | _ =>
    left
    simp only [Kernel.step] at he
    split_ifs at he <;> first
      | exact absurd he not_mem_nil
      | rw [mem_singleton.mp he]; rfl

/-- Nothing that one process does, and nothing the kernel does for itself, changes a byte that
another process sees. -/
theorem strangers_untouched (m : Machine) (h : Booted m) (ops : List Op) (op : Op) (task : Nat)
    (hactor : op.actor≠some task)
    (hold : ((Kernel.run ops (Kernel.boot m)).1.findTask task).isSome)
    (hapart : (Kernel.run ops (Kernel.boot m)).1.growsApart op=true) :
    visible ((Kernel.run ops (Kernel.boot m)).1.step op).1 task =
      visible (Kernel.run ops (Kernel.boot m)).1 task := by
  have hs := h.run ops
  obtain ⟨n',-,-,hview⟩ := hs.paired.step hs.book op (Or.inl rfl)
  rw [hview hapart]
  apply foldl_apply_other
  intro e he htarget
  obtain ⟨t,ht⟩ := Option.isSome_iff_exists.mp hold
  obtain ⟨hmem,hid⟩ := findTask_some ht
  have hlt := hs.book.fresh t hmem
  rcases step_targets op e he with hact | hnew
  · exact hactor (by rw [hact,htarget])
  · omega

/-- The child's store to a page it shares with its parent. -/
theorem sample_strangers :
    visible ((Kernel.run sampleShared (Kernel.boot (sampleMachine 0))).1.step
      (.access 2 .write 0x401008 7 (fun _ => []))).1 1 =
    visible (Kernel.run sampleShared (Kernel.boot (sampleMachine 0))).1 1 :=
  strangers_untouched _ (sampleMachine_booted 0) sampleShared
    (.access 2 .write 0x401008 7 (fun _ => [])) 1 (by decide) (by decide +kernel) rfl

theorem Paired.sameButFree (h : Paired s s.machine) (hsame : SameButFree s.machine n) :
    Paired s n := by
  obtain ⟨label,t,hapart⟩ := h.inStep
  have hroot := (t.inv.foreign t.inv.kernelRoot).1
  refine ⟨⟨label,⟨t.inv,hsame.pmm,hsame.kernelRoot,hsame.kernelPages,fun hb _ _ => hsame.mem hb,
    fun hl => hsame.mem (t.inv.bitmap_of_label hl),hsame.mem hroot,hsame.tail⟩,hapart⟩,
    h.nodup,h.exclusive,h.breaks⟩

theorem Paired.visible_twin (b : Bookkeeping s) (h : Paired s n) :
    visible (s.setMachine n)=visible s := by
  funext id a
  have hfind : (s.setMachine n).findTask id=s.findTask id := rfl
  have hmachine : (s.setMachine n).machine=n := rfl
  rw [visible,visible,hfind,hmachine]
  cases hs : s.findTask id with
  | none => rfl
  | some t =>
    dsimp only
    split_ifs with hdead
    · rfl
    have hmem := (findTask_some hs).1
    have ho : t.ownsSpace=true := by
      have := b.kernel t hmem
      cases ho : t.ownsSpace with
      | true => rfl
      | false => exact absurd (Or.inr (by rw [this,ho]; rfl)) hdead
    have hr := root_mem hmem ho
    rw [visibleIn,visibleIn]
    split_ifs with hlimit
    · rfl
    have ha : a<2 ^ 47 := not_le.mp hlimit
    rw [h.inStep.vmmSpaceQuery_eq hr ha,h.inStep.query hr ha]
    cases he : leafAt s.machine (t.space.pml4Physical/4096) (a/4096) with
    | none => rfl
    | some e =>
      obtain ⟨label,tw,-⟩ := h.inStep
      obtain ⟨-,hbit,-,hk⟩ := tw.leaf_page hr (vpn_lt ha) he
      simp only [Option.map_some,physical_page,tw.mem hbit (fun hx => hx) hk]

/-- What a page held before it was handed out is seen by nobody, along every run that loads no
program: the stack page of a new image is not cleared. -/
theorem stale_pages_unseen (m : Machine) (h : Booted m) (before ops : List Op) (n : Machine)
    (hsame : SameButFree (Kernel.run before (Kernel.boot m)).1.machine n)
    (hloads : ∀ op ∈ ops, op.loads=false) :
    visible (Kernel.run ops ((Kernel.run before (Kernel.boot m)).1.setMachine n)).1 =
      visible (Kernel.run ops (Kernel.run before (Kernel.boot m)).1).1 := by
  have hs := h.run before
  obtain ⟨n',hn,h'⟩ := (hs.paired.sameButFree hsame).run hs.book ops (Or.inr hloads)
  rw [hn]
  exact h'.visible_twin (hs.book.run ops)

def sampleSpawn : List Op := [.spawn 0 idleLaunch [0x69] [] (some sampleElf)]

/-- A machine whose free pages hold something else. -/
def refilled (m : Machine) : Machine :=
  { m with mem := fun q i => if m.pmm.bitmap q=true ∨ 512 ≤ i then m.mem q i else 0x5A }

theorem sameButFree_refilled (m : Machine) : SameButFree m (refilled m) :=
  ⟨rfl,rfl,rfl,fun hb => funext fun _ => if_pos (Or.inl hb),fun hi => if_pos (Or.inr hi)⟩

/-- The heap page is taken from the free ones and shows none of what was in it; so is the copy
that the child gets. -/
def sampleClean : List Op :=
  .brk 1 0x401010 :: heapStore 1 5 ++ .fork 1 idleLaunch true (fun _ => []) :: heapStore 2 7

theorem sampleFork_clean :
    visible (Kernel.run sampleClean
        ((Kernel.run sampleSpawn (Kernel.boot (sampleMachine 0))).1.setMachine
          (refilled (Kernel.run sampleSpawn (Kernel.boot (sampleMachine 0))).1.machine))).1 =
      visible (Kernel.run sampleClean
        (Kernel.run sampleSpawn (Kernel.boot (sampleMachine 0))).1).1 :=
  stale_pages_unseen _ (sampleMachine_booted 0) sampleSpawn _ _ (sameButFree_refilled _)
    (by simp [sampleClean,heapStore,Op.loads])

end Strangers

end ConeOS.Process
