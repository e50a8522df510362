import ConeOS.Process.Records

namespace ConeOS.Process

open ConeOS.Library ConeOS.Memory Kernel Function List

def Kernel.isUserProcess (s : Kernel) (id : Nat) : Bool :=
  decide (∃ i, (s.processes i).state = .running ∧ (s.processes i).pid=id)

/-- The process that a user process creates in this step. -/
def Kernel.userBirth (s : Kernel) (op : Op) : List Nat :=
  match op.creator with
  | none => []
  | some current =>
    if s.isUserProcess current && ((s.step op).1.findProcess s.nextTaskId).isSome then
      [s.nextTaskId]
    else []

def Kernel.userBorn : List Op → Kernel → List Nat
  | [], _ => []
  | op :: ops, s => s.userBirth op ++ Kernel.userBorn ops (s.step op).1

/-- The operation ends no process that a record still names as parent. -/
def Kernel.ParentsWait (s : Kernel) (op : Op) : Prop :=
  ∀ i, (s.processes i).state = .running → s.ends op=some (s.processes i).pid →
    ∀ j, (s.processes j).state ≠ .unused → (s.processes j).ppid≠(s.processes i).pid

instance (s : Kernel) (op : Op) : Decidable (s.ParentsWait op) :=
  inferInstanceAs (Decidable (∀ _, _ → _ → ∀ _, _ → _))

/-- Some running process may wait for the one in slot `i`. -/
def Kernel.Reapable (s : Kernel) (i : Fin maxProcesses) : Prop :=
  ∃ j, (s.processes j).state = .running ∧ (s.processes j).pid=(s.processes i).ppid

instance (s : Kernel) (i : Fin maxProcesses) : Decidable (s.Reapable i) :=
  inferInstanceAs (Decidable (∃ _, _ ∧ _))

section Records

/-- Process, parent and state in a slot stay. -/
structure SameRow (s s' : Kernel) (i : Fin maxProcesses) : Prop where
  pid : (s'.processes i).pid=(s.processes i).pid
  ppid : (s'.processes i).ppid=(s.processes i).ppid
  state : (s'.processes i).state=(s.processes i).state

/-- All that one operation can do to the process table. -/
inductive RecordStep (s : Kernel) (op : Op) (s' : Kernel) : Prop
  | kept (hrows : ∀ i, SameRow s s' i) (hnext : s.nextTaskId ≤ s'.nextTaskId)
  | created (i : Fin maxProcesses) (current : Nat) (hop : op.creator=some current)
      (hfree : (s.processes i).state = .unused) (hpid : (s'.processes i).pid=s.nextTaskId)
      (hppid : (s'.processes i).ppid=current) (hrun : (s'.processes i).state = .running)
      (hrows : ∀ j, j≠i → SameRow s s' j) (hnext : s'.nextTaskId=s.nextTaskId+1)
  | exited (i : Fin maxProcesses) (hused : (s.processes i).state ≠ .unused)
      (hends : s.ends op=some (s.processes i).pid)
      (hpid : (s'.processes i).pid=(s.processes i).pid)
      (hppid : (s'.processes i).ppid=(s.processes i).ppid)
      (hzombie : (s'.processes i).state = .zombie)
      (hrows : ∀ j, j≠i → SameRow s s' j) (hnext : s.nextTaskId ≤ s'.nextTaskId)
  | reaped (i : Fin maxProcesses) (hzombie : (s.processes i).state = .zombie)
      (hfree : (s'.processes i).state = .unused)
      (hrows : ∀ j, j≠i → SameRow s s' j) (hnext : s.nextTaskId ≤ s'.nextTaskId)

variable {s s' : Kernel} {op : Op}

theorem SameRow.of_eq {i : Fin maxProcesses} (h : s'.processes i=s.processes i) :
    SameRow s s' i := by
  refine ⟨?_,?_,?_⟩ <;> rw [h]

theorem RecordStep.unchanged (h : s'.processes=s.processes)
    (hnext : s.nextTaskId ≤ s'.nextTaskId) : RecordStep s op s' :=
  .kept (fun i => SameRow.of_eq (congrFun h i)) hnext

theorem RecordStep.same (h : SameRecords s s') : RecordStep s op s' :=
  .kept (fun i => ⟨h.pid i,h.ppid i,h.state i⟩) (le_of_eq h.nextTaskId.symm)

theorem RecordStep.launch {m : Machine} {space : VmmSpace} {i : Fin maxProcesses}
    {r : ProcessRecord} {current : Nat} (hop : op.creator=some current)
    (hfree : (s.processes i).state = .unused) (hpid : r.pid=s.nextTaskId)
    (hppid : r.ppid=current) (hrun : r.state = .running) :
    RecordStep s op (s.launch m space i r) := by
  have hself : (s.launch m space i r).processes i=r := update_self ..
  refine .created i current hop hfree ?_ ?_ ?_ ?_ rfl
  · rw [hself,hpid]
  · rw [hself,hppid]
  · rw [hself,hrun]
  · intro j hj
    exact SameRow.of_eq (update_of_ne hj _ _)

theorem RecordStep.processExit (current : Nat) (status : Int) (release : Nat → List Nat)
    (h : SameRecords s s') (hends : s.ends op=some current) :
    RecordStep s op (processExit current status release s') := by
  obtain ⟨hrec,hnext⟩ := removeZombies_records current release (s'.ended current status)
  rw [← processExit_eq] at hrec hnext
  have hle : s.nextTaskId≤(Process.processExit current status release s').nextTaskId := by
    rw [hnext,← h.nextTaskId,Kernel.ended]
    split <;> exact le_refl _
  cases hfind : s'.findProcess current with
  | none =>
    rw [Kernel.ended,hfind] at hrec
    refine .kept (fun i => ?_) hle
    refine ⟨?_,?_,?_⟩ <;> rw [hrec]
    · exact h.pid i
    · exact h.ppid i
    · exact h.state i
  | some i =>
    rw [Kernel.ended,hfind] at hrec
    obtain ⟨hused,hpid⟩ := findProcess_some hfind
    rw [h.state] at hused
    rw [h.pid] at hpid
    refine .exited i hused (hpid ▸ hends) ?_ ?_ ?_ (fun j hj => ?_) hle
    · rw [hrec,updateTask_processes,setProcess_self]
      exact h.pid i
    · rw [hrec,updateTask_processes,setProcess_self]
      exact h.ppid i
    · rw [hrec,updateTask_processes,setProcess_self]
    refine ⟨?_,?_,?_⟩ <;> rw [hrec,updateTask_processes,setProcess_of_ne _ _ hj]
    · exact h.pid j
    · exact h.ppid j
    · exact h.state j

theorem RecordStep.removeZombies (current : Nat) (release : Nat → List Nat)
    (hrec : s'.processes=s.processes) (hnext : s.nextTaskId ≤ s'.nextTaskId) :
    RecordStep s op (removeZombies current release s') := by
  obtain ⟨hrec',hnext'⟩ := removeZombies_records current release s'
  exact .unchanged (hrec'.trans hrec) (hnext'.symm ▸ hnext)

theorem step_records (s : Kernel) (op : Op) : RecordStep s op (s.step op).1 := by
  have h := step_outcome s op
  generalize (s.step op).1=s' at h ⊢
  cases h with
  | same h => exact .same h
  | task work space =>
    unfold taskCreateInSpace
    split
    · exact .same (SameRecords.setMachine s _)
    · exact .unchanged rfl (Nat.le_succ _)
  | launched hop hfree _ hpid hppid hrun => exact .launch hop hfree hpid hppid hrun
  | cancelled current release => exact .removeZombies current release rfl (Nat.le_succ _)
  | @moved i r m space hrun _ hpid hppid hrun' =>
    refine .kept (fun j => ?_) le_rfl
    rcases eq_or_ne j i with rfl | hji
    · have hself : (s.moved m (s.processes j).pid space j r).processes j=r := update_self ..
      refine ⟨?_,?_,?_⟩
      · exact (congrArg ProcessRecord.pid hself).trans hpid
      · exact (congrArg ProcessRecord.ppid hself).trans hppid
      · exact (congrArg ProcessRecord.state hself).trans (hrun'.trans hrun.symm)
    · exact SameRow.of_eq (update_of_ne hji _ _)
  | exited h current status release hends => exact .processExit current status release h hends
  | swept current release => exact .removeZombies current release rfl le_rfl
  | reaped hzombie =>
    refine .reaped _ hzombie ?_ (fun j hj => SameRow.of_eq (setProcess_of_ne _ _ hj)) le_rfl
    rw [setProcess_self]

end Records

/-- Every process a user process made has a running parent while it is in the table. -/
structure Kinship (s : Kernel) (born : List Nat) : Prop where
  parent : ∀ i, (s.processes i).state ≠ .unused → (s.processes i).pid ∈ born → s.Reapable i
  fresh : ∀ pid ∈ born, pid<s.nextTaskId

section Kinship

variable {s : Kernel} {born : List Nat} {op : Op}

theorem userBirth_nil (b : Bookkeeping s)
    (h : ∀ i, ((s.step op).1.processes i).state ≠ .unused →
      (s.processes i).state ≠ .unused ∧
        ((s.step op).1.processes i).pid=(s.processes i).pid) : s.userBirth op=[] := by
  unfold Kernel.userBirth
  split
  · rfl
  split_ifs with hborn
  · rw [Bool.and_eq_true] at hborn
    obtain ⟨i,hi⟩ := Option.isSome_iff_exists.mp hborn.2
    obtain ⟨hused,hpid⟩ := findProcess_some hi
    obtain ⟨hold,hsame⟩ := h i hused
    have hlt := b.pidFresh i hold
    rw [hsame] at hpid
    omega
  · rfl

theorem userBirth_created {current : Nat} (hop : op.creator=some current) {pid : Nat}
    (h : pid ∈ s.userBirth op) : pid=s.nextTaskId ∧ s.isUserProcess current=true := by
  unfold Kernel.userBirth at h
  rw [hop] at h
  dsimp only at h
  split_ifs at h with hborn
  · rw [Bool.and_eq_true] at hborn
    exact ⟨mem_singleton.mp h,hborn.1⟩
  · cases h

theorem Reapable.keep {s' : Kernel} {i i' : Fin maxProcesses}
    (hppid : (s'.processes i').ppid=(s.processes i).ppid) (h : s.Reapable i)
    (hrun : ∀ j, (s.processes j).state = .running →
      (s.processes j).pid=(s.processes i).ppid → SameRow s s' j) : s'.Reapable i' := by
  obtain ⟨j,hj,hpid⟩ := h
  have hrow := hrun j hj hpid
  exact ⟨j,hrow.state.trans hj,by rw [hrow.pid,hppid,hpid]⟩

theorem Kinship.step (k : Kinship s born) (b : Bookkeeping s) (hwait : s.ParentsWait op) :
    Kinship (s.step op).1 (born ++ s.userBirth op) := by
  cases step_records s op with
  | kept hrows hnext =>
    have hnil : s.userBirth op=[] := by
      apply userBirth_nil b
      intro i hi
      rw [(hrows i).state] at hi
      exact ⟨hi,(hrows i).pid⟩
    rw [hnil,append_nil]
    refine ⟨?_,fun pid hpid => lt_of_lt_of_le (k.fresh pid hpid) hnext⟩
    intro i hi hborn
    rw [(hrows i).state] at hi
    rw [(hrows i).pid] at hborn
    exact Reapable.keep (hrows i).ppid (k.parent i hi hborn) (fun j _ _ => hrows j)
  | created i current hop hfree hpid hppid hrun hrows hnext =>
    refine ⟨?_,?_⟩
    · intro j hj hborn
      by_cases hji : j=i
      · subst hji
        have hnew : s.nextTaskId ∈ s.userBirth op := by
          rw [hpid] at hborn
          rcases mem_append.mp hborn with hold | hnew
          · have := k.fresh _ hold
            omega
          · exact hnew
        have huser := (userBirth_created hop hnew).2
        obtain ⟨p,hp,hcurrent⟩ := of_decide_eq_true huser
        have hpj : p≠j := by
          rintro rfl
          rw [hfree] at hp
          cases hp
        exact ⟨p,(hrows p hpj).state.trans hp,by rw [(hrows p hpj).pid,hcurrent,hppid]⟩
      rw [(hrows j hji).state] at hj
      rw [(hrows j hji).pid] at hborn
      have hold : (s.processes j).pid ∈ born := by
        rcases mem_append.mp hborn with hold | hnew
        · exact hold
        · have hlt := b.pidFresh j hj
          have heq := (userBirth_created hop hnew).1
          omega
      apply Reapable.keep (hrows j hji).ppid (k.parent j hj hold)
      intro p hp _
      apply hrows
      rintro rfl
      rw [hfree] at hp
      cases hp
    · intro pid hmem
      rw [hnext]
      rcases mem_append.mp hmem with hold | hnew
      · exact Nat.lt_succ_of_lt (k.fresh pid hold)
      · rw [(userBirth_created hop hnew).1]
        exact Nat.lt_succ_self _
  | exited i hused hends hpid hppid hzombie hrows hnext =>
    have hrow (j : Fin maxProcesses) (hj : ((s.step op).1.processes j).state ≠ .unused) :
        (s.processes j).state ≠ .unused ∧
          ((s.step op).1.processes j).pid=(s.processes j).pid ∧
          ((s.step op).1.processes j).ppid=(s.processes j).ppid := by
      by_cases hji : j=i
      · subst hji
        exact ⟨hused,hpid,hppid⟩
      · rw [(hrows j hji).state] at hj
        exact ⟨hj,(hrows j hji).pid,(hrows j hji).ppid⟩
    rw [userBirth_nil b (fun j hj => ⟨(hrow j hj).1,(hrow j hj).2.1⟩),append_nil]
    refine ⟨?_,fun pid hmem => lt_of_lt_of_le (k.fresh pid hmem) hnext⟩
    intro j hj hborn
    obtain ⟨hj,hpidj,hppidj⟩ := hrow j hj
    rw [hpidj] at hborn
    apply Reapable.keep hppidj (k.parent j hj hborn)
    intro p hp hparent
    apply hrows
    -- the process that ends is nobody's parent
    rintro rfl
    exact hwait p hp hends j hj hparent.symm
  | reaped i hzombie hfree hrows hnext =>
    have hrow (j : Fin maxProcesses) (hj : ((s.step op).1.processes j).state ≠ .unused) :
        SameRow s (s.step op).1 j := by
      apply hrows
      rintro rfl
      exact hj hfree
    have hnil : s.userBirth op=[] := by
      apply userBirth_nil b
      intro j hj
      have hsame := hrow j hj
      rw [hsame.state] at hj
      exact ⟨hj,hsame.pid⟩
    rw [hnil,append_nil]
    refine ⟨?_,fun pid hmem => lt_of_lt_of_le (k.fresh pid hmem) hnext⟩
    intro j hj hborn
    have hsame := hrow j hj
    rw [hsame.state] at hj
    rw [hsame.pid] at hborn
    apply Reapable.keep hsame.ppid (k.parent j hj hborn)
    intro p hp _
    apply hrows
    rintro rfl
    rw [hzombie] at hp
    cases hp

theorem Kinship.run (k : Kinship s born) (b : Bookkeeping s) {ops : List Op}
    (h : Kernel.Along Kernel.ParentsWait ops s) :
    Kinship (Kernel.run ops s).1 (born ++ Kernel.userBorn ops s) := by
  induction ops generalizing s born with
  | nil =>
    rw [Kernel.userBorn,append_nil]
    exact k
  | cons op ops ih =>
    rw [Kernel.userBorn,← append_assoc]
    exact ih (k.step b h.1) (b.step op) h.2

theorem Bookkeeping.waitpid_frees (b : Bookkeeping s) {i j : Fin maxProcesses}
    (hzombie : (s.processes i).state = .zombie) (hrun : (s.processes j).state = .running)
    (hparent : (s.processes j).pid=(s.processes i).ppid) (release : Nat → List Nat) :
    ((s.step (.waitpid (s.processes i).ppid (s.processes i).pid release)).1.processes i).state =
      .unused := by
  obtain ⟨t,ht,hid,hz,-⟩ := b.running j hrun
  have hfind := findTask_of_mem b.ids ht
  rw [hid,hparent] at hfind
  have hi := b.findProcess_eq (i := i) (by rw [hzombie]; decide)
  rw [Kernel.step,Kernel.runs,hfind]
  simp only [hz,Bool.not_false,Bool.not_true,Bool.false_eq_true,if_false,hi,
    ConeOS.Process.processWaitpid,hzombie,ne_eq,not_true,setProcess_self]

end Kinship

/-- As long as no process ends before its children are waited for, every ended process that
a user process created has a running parent, who can still free its slot. -/
theorem exited_processes_reapable (m : Machine) (ops : List Op)
    (h : Kernel.Along Kernel.ParentsWait ops (Kernel.boot m)) :
    let s := (Kernel.run ops (Kernel.boot m)).1
    ∀ i, (s.processes i).state = .zombie →
      (s.processes i).pid ∈ Kernel.userBorn ops (Kernel.boot m) →
      s.Reapable i ∧ ∀ release,
        ((s.step (.waitpid (s.processes i).ppid (s.processes i).pid release)).1.processes i).state =
          .unused := by
  intro s i hzombie hborn
  have b := Bookkeeping.boot m
  have k : Kinship (Kernel.boot m) [] :=
    ⟨fun i hi => absurd rfl hi,fun pid hpid => by cases hpid⟩
  have hk := k.run b h
  have hreap := hk.parent i (by rw [hzombie]; decide) (by simpa using hborn)
  obtain ⟨j,hj,hparent⟩ := id hreap
  exact ⟨hreap,fun release => (b.run ops).waitpid_frees hzombie hj hparent release⟩

/-- The kernel starts process 1, which starts process 2 and outlives it. -/
theorem outlived_child_reapable :
    let s := (Kernel.run [.spawn 0 idleLaunch [0x61] [] (some sampleElf),
      .spawn 1 idleLaunch [0x61] [] (some sampleElf),.exit 2 0 (fun _ => [])]
      (Kernel.boot (sampleMachine 0))).1
    (s.processes ⟨1,by decide⟩).state = .zombie ∧ s.Reapable ⟨1,by decide⟩ :=
  ⟨by decide +kernel,(exited_processes_reapable (sampleMachine 0)
    [.spawn 0 idleLaunch [0x61] [] (some sampleElf),
      .spawn 1 idleLaunch [0x61] [] (some sampleElf),.exit 2 0 (fun _ => [])]
    (by decide +kernel) ⟨1,by decide⟩ (by decide +kernel) (by decide +kernel)).1⟩

/-- Process 1 ends first: its child stays in the table for good. -/
theorem orphan_not_reapable :
    let ops : List Op := [.spawn 0 idleLaunch [0x61] [] (some sampleElf),
      .spawn 1 idleLaunch [0x61] [] (some sampleElf),.exit 1 0 (fun _ => []),
      .exit 2 0 (fun _ => [])]
    let s := (Kernel.run ops (Kernel.boot (sampleMachine 0))).1
    (s.processes ⟨1,by decide⟩).state = .zombie ∧
      (s.processes ⟨1,by decide⟩).pid ∈ Kernel.userBorn ops (Kernel.boot (sampleMachine 0)) ∧
      ¬ s.Reapable ⟨1,by decide⟩ := by
  decide +kernel

end ConeOS.Process
