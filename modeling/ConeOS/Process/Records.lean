import ConeOS.Process.Run

namespace ConeOS.Process

open ConeOS.Library ConeOS.Memory Kernel Function List

/-- What the process table says of a process, its memory aside. -/
structure SameRecords (s s' : Kernel) : Prop where
  tasks : s'.tasks=s.tasks
  nextTaskId : s'.nextTaskId=s.nextTaskId
  pid : ∀ i, (s'.processes i).pid=(s.processes i).pid
  ppid : ∀ i, (s'.processes i).ppid=(s.processes i).ppid
  state : ∀ i, (s'.processes i).state=(s.processes i).state
  space : ∀ i, (s'.processes i).space=(s.processes i).space

/-- Tasks and process records belong together. -/
structure Bookkeeping (s : Kernel) : Prop where
  ids : (s.tasks.map Task.id).Nodup
  fresh : ∀ t ∈ s.tasks, t.id<s.nextTaskId
  kernel : ∀ t ∈ s.tasks, t.space.isKernel = !t.ownsSpace
  pids : ∀ i j, (s.processes i).state ≠ .unused → (s.processes j).state ≠ .unused →
    (s.processes i).pid=(s.processes j).pid → i=j
  pidFresh : ∀ i, (s.processes i).state ≠ .unused → (s.processes i).pid<s.nextTaskId
  running : ∀ i, (s.processes i).state = .running → ∃ t ∈ s.tasks,
    t.id=(s.processes i).pid ∧ t.zombie=false ∧ t.ownsSpace=true ∧
      (s.processes i).space=some t.space

section Lookup

variable {s : Kernel} {pid : Nat} {i : Fin maxProcesses} {process : ProcessRecord}
  {space : VmmSpace}

theorem findTask_some {id : Nat} {t : Task} (h : s.findTask id=some t) :
    t ∈ s.tasks ∧ t.id=id := by
  refine ⟨mem_of_find?_eq_some h,?_⟩
  have hid := List.find?_some h
  simpa using hid

theorem findTask_of_mem {t : Task} (hids : (s.tasks.map Task.id).Nodup) (h : t ∈ s.tasks) :
    s.findTask t.id=some t := by
  unfold Kernel.findTask
  generalize s.tasks=ts at hids h
  induction ts with
  | nil => cases h
  | cons u ts ih =>
    rw [map_cons,nodup_cons] at hids
    rcases mem_cons.mp h with rfl | h
    · simp
    have hne : u.id≠t.id := by
      intro he
      exact hids.1 (mem_map.mpr ⟨t,h,he.symm⟩)
    rw [List.find?_cons_of_neg (by simpa using hne)]
    exact ih hids.2 h

theorem findProcess_some (h : s.findProcess pid=some i) :
    (s.processes i).state ≠ .unused ∧ (s.processes i).pid=pid := by
  have hi := firstIndex_some h
  simpa [bne_iff_ne] using hi

theorem findProcess_none (h : s.findProcess pid=none) (i : Fin maxProcesses) :
    (s.processes i).state ≠ .unused → (s.processes i).pid≠pid := by
  have hi := firstIndex_none h i
  intro hused
  simpa [hused] using hi

theorem Bookkeeping.findProcess_eq (b : Bookkeeping s)
    (h : (s.processes i).state ≠ .unused) : s.findProcess (s.processes i).pid=some i := by
  cases hf : s.findProcess (s.processes i).pid with
  | none => exact absurd rfl (findProcess_none hf i h)
  | some j =>
    obtain ⟨hj,hpid⟩ := findProcess_some hf
    rw [b.pids j i hj h hpid]

theorem freeProcessRecord_some (h : s.freeProcessRecord=some i) :
    (s.processes i).state = .unused := by
  have hi := firstIndex_some h
  simpa using hi

theorem currentProcess_some {current : Nat}
    (h : s.currentProcess current=some (i,process,space)) :
    process=s.processes i ∧ process.state = .running ∧ process.pid=current ∧
      process.space=some space := by
  unfold Kernel.currentProcess at h
  cases hf : s.findProcess current with
  | none => simp [hf] at h
  | some j =>
    simp only [hf] at h
    split at h
    · cases h
    rename_i hrun
    cases hs : (s.processes j).space with
    | none => simp [hs] at h
    | some space' =>
      simp only [hs,Option.some.injEq,Prod.mk.injEq] at h
      obtain ⟨rfl,rfl,rfl⟩ := h
      exact ⟨rfl,not_not.mp hrun,(findProcess_some hf).2,hs⟩

theorem currentProcess_eq {current : Nat}
    (hfound : s.findProcess current=some i) (hrun : (s.processes i).state = .running)
    (hspace : (s.processes i).space=some space) :
    s.currentProcess current=some (i,s.processes i,space) := by
  simp only [Kernel.currentProcess,hfound,hrun,hspace,ne_eq,not_true_eq_false,if_false]

theorem Bookkeeping.current (b : Bookkeeping s) {current : Nat}
    (h : s.currentProcess current=some (i,process,space)) :
    ∃ t ∈ s.tasks, s.findTask current=some t ∧ t.id=current ∧ t.zombie=false ∧
      t.ownsSpace=true ∧ t.space=space := by
  obtain ⟨rfl,hrun,hpid,hspace⟩ := currentProcess_some h
  obtain ⟨t,ht,hid,hz,ho,hs⟩ := b.running i hrun
  rw [hspace] at hs
  rw [hpid] at hid
  refine ⟨t,ht,?_,hid,hz,ho,(Option.some.inj hs).symm⟩
  rw [← hid]
  exact findTask_of_mem b.ids ht

end Lookup

section Fields

@[simp] theorem setMachine_machine (s : Kernel) (m : Machine) :
    (s.setMachine m).machine=m := rfl

@[simp] theorem setProcess_self (s : Kernel) (i : Fin maxProcesses) (r : ProcessRecord) :
    (s.setProcess i r).processes i=r := update_self ..

theorem setProcess_of_ne (s : Kernel) {i j : Fin maxProcesses} (r : ProcessRecord) (h : j≠i) :
    (s.setProcess i r).processes j=s.processes j := update_of_ne h ..

@[simp] theorem updateTask_processes (s : Kernel) (id : Nat) (f : Task → Task) :
    (s.updateTask id f).processes=s.processes := rfl

end Fields

section SameRecords

theorem SameRecords.refl (s : Kernel) : SameRecords s s :=
  ⟨rfl,rfl,fun _ => rfl,fun _ => rfl,fun _ => rfl,fun _ => rfl⟩

theorem SameRecords.setMachine (s : Kernel) (m : Machine) : SameRecords s (s.setMachine m) :=
  ⟨rfl,rfl,fun _ => rfl,fun _ => rfl,fun _ => rfl,fun _ => rfl⟩

theorem SameRecords.setProcess {s : Kernel} (m : Machine) (i : Fin maxProcesses)
    {r : ProcessRecord} (hpid : r.pid=(s.processes i).pid)
    (hppid : r.ppid=(s.processes i).ppid) (hstate : r.state=(s.processes i).state)
    (hspace : r.space=(s.processes i).space) :
    SameRecords s ((s.setMachine m).setProcess i r) := by
  have hsame {α : Type} (f : ProcessRecord → α) (h : f r=f (s.processes i))
      (j : Fin maxProcesses) : f (update s.processes i r j)=f (s.processes j) := by
    by_cases hj : j=i
    · rw [hj,update_self,h]
    · rw [update_of_ne hj]
  exact ⟨rfl,rfl,hsame _ hpid,hsame _ hppid,hsame _ hstate,hsame _ hspace⟩

variable {s : Kernel}

theorem processBrk_same (current requested : Nat) :
    SameRecords s (processBrk current requested s).2 := by
  unfold processBrk
  cases h : s.currentProcess current with
  | none => exact SameRecords.refl s
  | some x =>
    obtain ⟨i,process,space⟩ := x
    obtain ⟨rfl,-⟩ := currentProcess_some h
    dsimp only
    repeat' split
    all_goals first
      | exact SameRecords.refl s
      | exact SameRecords.setProcess _ i rfl rfl rfl rfl

theorem processMmap_same (current hint length : Nat) (protection flags : BitVec 64) :
    SameRecords s (processMmap current hint length protection flags s).2 := by
  unfold processMmap
  split
  · rename_i i process space rounded h _
    obtain ⟨rfl,-⟩ := currentProcess_some h
    dsimp only
    repeat' split
    all_goals first
      | exact SameRecords.refl s
      | exact SameRecords.setProcess s.machine i rfl rfl rfl rfl
  · exact SameRecords.refl s

theorem processMunmap_same (current address length : Nat) :
    SameRecords s (processMunmap current address length s).2 := by
  unfold processMunmap
  split
  · rename_i i process space rounded h _
    obtain ⟨rfl,-⟩ := currentProcess_some h
    dsimp only
    split_ifs
    · exact SameRecords.refl s
    · exact SameRecords.refl s
    · exact SameRecords.refl s
    · exact SameRecords.setProcess _ i rfl rfl rfl rfl
  · exact SameRecords.refl s

theorem processHandlePageFault_machine (current address : Nat) (code : FaultCode) :
    ∃ m, (processHandlePageFault current address code s).2=s.setMachine m := by
  unfold processHandlePageFault
  cases h : s.currentProcess current with
  | none => exact ⟨s.machine,rfl⟩
  | some x =>
    obtain ⟨i,process,space⟩ := x
    dsimp only
    split_ifs
    · exact ⟨s.machine,rfl⟩
    · exact ⟨_,rfl⟩
    · exact ⟨s.machine,rfl⟩
    · exact ⟨s.machine,rfl⟩
    · split
      · exact ⟨_,rfl⟩
      · split <;> exact ⟨_,rfl⟩

theorem copyToUser_machine (current address : Nat) (bytes : List UInt8) :
    ∃ m, (copyToUser current address bytes s).2.2=s.setMachine m := by
  unfold copyToUser
  split
  · exact ⟨s.machine,rfl⟩
  split_ifs
  · exact ⟨s.machine,rfl⟩
  · exact ⟨s.machine,rfl⟩
  · exact ⟨_,rfl⟩

end SameRecords

section Tasks

variable {s : Kernel}

theorem removeZombiesFrom_tasks (current : Nat) (release : Nat → List Nat) (ts : List Task)
    (m : Machine) :
    (removeZombiesFrom current release ts m).1 =
      ts.filter (fun t => !(t.id != current && t.zombie)) := by
  induction ts generalizing m with
  | nil => rfl
  | cons t ts ih =>
    rw [removeZombiesFrom,filter_cons]
    by_cases h : t.id≠current ∧ t.zombie=true
    · rw [if_pos h,if_neg (by simp [h.1,h.2])]
      exact ih _
    · rw [if_neg h,if_pos (by simpa [bne_iff_ne,or_iff_not_imp_left] using h)]
      exact congrArg (t :: ·) (ih m)

theorem removeZombies_tasks (current : Nat) (release : Nat → List Nat) (s : Kernel) :
    (removeZombies current release s).tasks.Sublist s.tasks ∧
      ∀ t ∈ s.tasks, t.zombie=false → t ∈ (removeZombies current release s).tasks := by
  unfold removeZombies
  cases h : s.tasks with
  | nil => exact ⟨by simp [h],fun t ht => by cases ht⟩
  | cons main ts =>
    dsimp only
    rw [removeZombiesFrom_tasks]
    refine ⟨(filter_sublist).cons_cons main,?_⟩
    intro t ht hz
    rcases mem_cons.mp ht with rfl | ht
    · exact mem_cons_self
    · exact mem_cons_of_mem _ (mem_filter.mpr ⟨ht,by simp [hz]⟩)

theorem removeZombies_records (current : Nat) (release : Nat → List Nat) (s : Kernel) :
    (removeZombies current release s).processes=s.processes ∧
      (removeZombies current release s).nextTaskId=s.nextTaskId := by
  unfold removeZombies
  cases s.tasks <;> exact ⟨rfl,rfl⟩

/-- A started task with its process record. -/
def Kernel.launch (m : Machine) (space : VmmSpace) (i : Fin maxProcesses) (r : ProcessRecord)
    (s : Kernel) : Kernel :=
  { machine := m
    processes := update s.processes i r
    tasks := s.tasks ++ [⟨s.nextTaskId,false,space,true⟩]
    nextTaskId := s.nextTaskId+1 }

/-- A task that is taken back before it ran. -/
def Kernel.cancelled (m : Machine) (space : VmmSpace) (s : Kernel) : Kernel :=
  { s with
    machine := m
    tasks := (s.tasks ++ [(⟨s.nextTaskId,false,space,true⟩ : Task)]).map
      (fun t => if t.id=s.nextTaskId then { t with zombie := true } else t)
    nextTaskId := s.nextTaskId+1 }

end Tasks

namespace Bookkeeping

variable {s s' : Kernel} {r : ProcessRecord}

theorem same (b : Bookkeeping s) (h : SameRecords s s') : Bookkeeping s' := by
  refine ⟨?_,?_,?_,?_,?_,?_⟩
  · rw [h.tasks]
    exact b.ids
  · rw [h.tasks,h.nextTaskId]
    exact b.fresh
  · rw [h.tasks]
    exact b.kernel
  · intro i j hi hj hpid
    rw [h.state] at hi hj
    rw [h.pid,h.pid] at hpid
    exact b.pids i j hi hj hpid
  · intro i hi
    rw [h.state] at hi
    rw [h.pid,h.nextTaskId]
    exact b.pidFresh i hi
  intro i hi
  rw [h.state] at hi
  rw [h.tasks,h.pid,h.space]
  exact b.running i hi

theorem withTasks (b : Bookkeeping s) (hrec : s'.processes=s.processes)
    (hnext : s'.nextTaskId=s.nextTaskId) (hsub : s'.tasks.Sublist s.tasks)
    (hrun : ∀ t ∈ s.tasks, t.zombie=false → t ∈ s'.tasks) : Bookkeeping s' := by
  refine ⟨b.ids.sublist (hsub.map _),?_,?_,?_,?_,?_⟩
  · intro t ht
    rw [hnext]
    exact b.fresh t (hsub.subset ht)
  · intro t ht
    exact b.kernel t (hsub.subset ht)
  · rw [hrec]
    exact b.pids
  · rw [hrec,hnext]
    exact b.pidFresh
  rw [hrec]
  intro i hi
  obtain ⟨t,ht,hid,hz,rest⟩ := b.running i hi
  exact ⟨t,hrun t ht hz,hid,hz,rest⟩

theorem removeZombies (b : Bookkeeping s) (current : Nat) (release : Nat → List Nat) :
    Bookkeeping (removeZombies current release s) := by
  obtain ⟨hrec,hnext⟩ := removeZombies_records current release s
  obtain ⟨hsub,hrun⟩ := removeZombies_tasks current release s
  exact b.withTasks hrec hnext hsub hrun

theorem addTask (b : Bookkeeping s) (t : Task) (hid : t.id=s.nextTaskId)
    (hk : t.space.isKernel = !t.ownsSpace) (m : Machine) :
    Bookkeeping { s with
      machine := m
      tasks := s.tasks ++ [t]
      nextTaskId := s.nextTaskId+1 } := by
  refine ⟨?_,?_,?_,b.pids,?_,?_⟩
  · rw [map_append,nodup_append]
    refine ⟨b.ids,nodup_singleton _,?_⟩
    intro x hx y hy
    obtain ⟨u,hu,rfl⟩ := mem_map.mp hx
    rw [map_singleton,mem_singleton] at hy
    rw [hy,hid]
    exact Nat.ne_of_lt (b.fresh u hu)
  · intro u hu
    rcases mem_append.mp hu with hu | hu
    · exact Nat.lt_succ_of_lt (b.fresh u hu)
    · rw [mem_singleton.mp hu,hid]
      exact Nat.lt_succ_self _
  · intro u hu
    rcases mem_append.mp hu with hu | hu
    · exact b.kernel u hu
    · rw [mem_singleton.mp hu]
      exact hk
  · intro i hi
    exact Nat.lt_succ_of_lt (b.pidFresh i hi)
  · intro i hi
    obtain ⟨u,hu,rest⟩ := b.running i hi
    exact ⟨u,mem_append_left _ hu,rest⟩

theorem createTask (b : Bookkeeping s) (work : KernelWork) (space : VmmSpace) :
    Bookkeeping (taskCreateInSpace work space s).2 := by
  unfold taskCreateInSpace
  cases kmalloc work s.machine with
  | mk ok m =>
    cases ok with
    | false => exact b.same (SameRecords.setMachine s m)
    | true => exact b.addTask ⟨s.nextTaskId,false,space,!space.isKernel⟩ rfl (by simp) m

theorem launch (b : Bookkeeping s) (m : Machine) {space : VmmSpace} {i : Fin maxProcesses}
    (hk : space.isKernel=false) (hpid : r.pid=s.nextTaskId)
    (hspace : r.space=some space) : Bookkeeping (s.launch m space i r) := by
  have ht := b.addTask ⟨s.nextTaskId,false,space,true⟩ rfl (by simp [hk]) m
  have hold {j : Fin maxProcesses} (hj : (s.processes j).state ≠ .unused) :
      (s.processes j).pid≠s.nextTaskId := Nat.ne_of_lt (b.pidFresh j hj)
  refine ⟨ht.ids,ht.fresh,ht.kernel,?_,?_,?_⟩
  · intro j k hj hk' h
    dsimp only [Kernel.launch] at hj hk' h
    by_cases hji : j=i <;> by_cases hki : k=i
    · rw [hji,hki]
    · rw [hji,update_self,update_of_ne hki,hpid] at h
      rw [update_of_ne hki] at hk'
      exact absurd h.symm (hold hk')
    · rw [hki,update_self,update_of_ne hji,hpid] at h
      rw [update_of_ne hji] at hj
      exact absurd h (hold hj)
    rw [update_of_ne hji,update_of_ne hki] at h
    rw [update_of_ne hji] at hj
    rw [update_of_ne hki] at hk'
    exact b.pids j k hj hk' h
  · intro j hj
    dsimp only [Kernel.launch] at hj ⊢
    rcases eq_or_ne j i with rfl | hji
    · rw [update_self,hpid]
      exact Nat.lt_succ_self _
    · rw [update_of_ne hji] at hj ⊢
      exact Nat.lt_succ_of_lt (b.pidFresh j hj)
  intro j hj
  dsimp only [Kernel.launch] at hj ⊢
  rcases eq_or_ne j i with rfl | hji
  · rw [update_self,hpid,hspace]
    exact ⟨_,mem_append_right _ (mem_singleton_self _),rfl,rfl,rfl,rfl⟩
  · rw [update_of_ne hji] at hj ⊢
    obtain ⟨t,ht',rest⟩ := b.running j hj
    exact ⟨t,mem_append_left _ ht',rest⟩

/-- A task ends; no running record names it. -/
theorem endTask (b : Bookkeeping s) (id : Nat)
    (h : ∀ i, (s.processes i).state = .running → (s.processes i).pid≠id) :
    Bookkeeping (s.updateTask id (fun t => { t with zombie := true })) := by
  have hids : (s.tasks.map (fun t => if t.id=id then { t with zombie := true } else t)).map
      Task.id=s.tasks.map Task.id := by
    rw [map_map]
    apply map_congr_left
    intro t _
    dsimp only [Function.comp]
    split_ifs <;> rfl
  refine ⟨?_,?_,?_,b.pids,b.pidFresh,?_⟩
  · show (List.map Task.id (List.map _ s.tasks)).Nodup
    rw [hids]
    exact b.ids
  · intro t ht
    obtain ⟨u,hu,rfl⟩ := mem_map.mp ht
    have := b.fresh u hu
    split_ifs <;> exact this
  · intro t ht
    obtain ⟨u,hu,rfl⟩ := mem_map.mp ht
    have := b.kernel u hu
    split_ifs <;> exact this
  intro i hi
  obtain ⟨t,ht,hid,rest⟩ := b.running i hi
  refine ⟨t,mem_map.mpr ⟨t,ht,?_⟩,hid,rest⟩
  rw [if_neg]
  rw [hid]
  exact h i hi

/-- A record leaves the running state. -/
theorem stopProcess (b : Bookkeeping s) (i : Fin maxProcesses)
    (hused : (s.processes i).state ≠ .unused) (hpid : r.pid=(s.processes i).pid)
    (hstate : r.state ≠ .running) : Bookkeeping (s.setProcess i r) := by
  have hfield {j : Fin maxProcesses} (hj : (update s.processes i r j).state ≠ .unused) :
      (s.processes j).state ≠ .unused ∧
        (update s.processes i r j).pid=(s.processes j).pid := by
    rcases eq_or_ne j i with rfl | hji
    · exact ⟨hused,by rw [update_self,hpid]⟩
    · rw [update_of_ne hji] at hj ⊢
      exact ⟨hj,rfl⟩
  refine ⟨b.ids,b.fresh,b.kernel,?_,?_,?_⟩
  · intro j k hj hk h
    obtain ⟨hj,hpj⟩ := hfield hj
    obtain ⟨hk,hpk⟩ := hfield hk
    apply b.pids j k hj hk
    rw [← hpj,← hpk]
    exact h
  · intro j hj
    obtain ⟨hj,hpj⟩ := hfield hj
    exact lt_of_eq_of_lt hpj (b.pidFresh j hj)
  intro j hj
  dsimp only [Kernel.setProcess] at hj ⊢
  rcases eq_or_ne j i with rfl | hji
  · rw [update_self] at hj
    exact absurd hj hstate
  · rw [update_of_ne hji] at hj ⊢
    exact b.running j hj

end Bookkeeping

section Spaces

variable {m m' : Machine} {space : VmmSpace} {work : KernelWork} {arguments : List (List UInt8)}
  {image : ProcessImage}

theorem vmmSpaceCreate_isKernel
    (h : vmmSpaceCreate work m=(some space,m')) : space.isKernel=false := by
  unfold vmmSpaceCreate at h
  repeat' split at h
  all_goals cases h
  rfl

theorem vmmSpaceCloneCow_isKernel {parent : VmmSpace}
    (h : vmmSpaceCloneCow work parent m=(some space,m')) : space.isKernel=false := by
  unfold vmmSpaceCloneCow at h
  split at h
  · cases h
  rename_i hcreate
  split at h
  · cases h
  · cases h
    exact vmmSpaceCreate_isKernel hcreate

theorem fillImage_space {file : List UInt8}
    (h : fillImage space file arguments m=(.ok image,m')) :
    image.space=space := by
  unfold fillImage at h
  repeat' split at h
  all_goals cases h
  rfl

theorem createProcessImage_isKernel {file : Option (List UInt8)}
    (h : createProcessImage work file arguments m=(.ok image,m')) :
    image.space.isKernel=false := by
  unfold createProcessImage at h
  split at h
  · cases h
  split at h
  · cases h
  rename_i hcreate
  split at h
  · cases h
  split at h
  · cases h
  rename_i hfill
  cases h
  rw [fillImage_space hfill]
  exact vmmSpaceCreate_isKernel hcreate

end Spaces

section Calls

variable {s : Kernel} {work : KernelWork} {space : VmmSpace} {s' : Kernel}

theorem taskCreateInSpace_some {pid : Nat}
    (h : taskCreateInSpace work space s=(some pid,s')) : pid=s.nextTaskId ∧ ∃ m, s' =
      { s with
        machine := m
        tasks := s.tasks ++ [⟨s.nextTaskId,false,space,!space.isKernel⟩]
        nextTaskId := s.nextTaskId+1 } := by
  unfold taskCreateInSpace at h
  split at h
  · cases h
  · cases h
    exact ⟨rfl,_,rfl⟩

theorem taskCreateInSpace_none
    (h : taskCreateInSpace work space s=(none,s')) : ∃ m, s'=s.setMachine m := by
  unfold taskCreateInSpace at h
  split at h
  · cases h
    exact ⟨_,rfl⟩
  · cases h

/-- A spawn fails and leaves the records alone, or starts one process. -/
theorem processSpawn_cases (current : Nat) (work : LaunchWork) (path argument : List UInt8)
    (file : Option (List UInt8)) (s : Kernel) :
    (∃ e m, e<0 ∧ processSpawn current work path argument file s=(e,s.setMachine m)) ∨
      ∃ i r m space, (s.processes i).state = .unused ∧ space.isKernel=false ∧
        r.pid=s.nextTaskId ∧ r.ppid=current ∧ r.state = .running ∧ r.space=some space ∧
        processSpawn current work path argument file s =
          ((s.nextTaskId : Int), s.launch m space i r) := by
  unfold processSpawn
  split
  · exact Or.inl ⟨_,s.machine,by decide,rfl⟩
  rename_i record hfree
  split
  · exact Or.inl ⟨_,s.machine,by decide,rfl⟩
  split
  · rename_i e m _
    refine Or.inl ⟨_,m,?_,rfl⟩
    cases e <;> decide
  rename_i image m1 hcreate
  have hk := createProcessImage_isKernel hcreate
  split
  · exact Or.inl ⟨_,_,by decide,rfl⟩
  split
  · rename_i htask
    obtain ⟨m3,rfl⟩ := taskCreateInSpace_none htask
    exact Or.inl ⟨_,_,by decide,rfl⟩
  rename_i htask
  obtain ⟨rfl,m3,rfl⟩ := taskCreateInSpace_some htask
  simp only [hk,Bool.not_false]
  exact Or.inr ⟨record,_,m3,image.space,freeProcessRecord_some hfree,hk,rfl,rfl,
    rfl,rfl,rfl⟩

/-- A fork fails, takes the child's task back, or starts one process. -/
theorem processFork_cases (current : Nat) (work : LaunchWork) (vfsForked : Bool)
    (release : Nat → List Nat) (s : Kernel) :
    (∃ m, processFork current work vfsForked release s=(syscallEnomem,s.setMachine m)) ∨
      (∃ m space, space.isKernel=false ∧ processFork current work vfsForked release s =
        (syscallEnomem, removeZombies current release (s.cancelled m space))) ∨
      ∃ j parent parentSpace i r m space,
        s.currentProcess current=some (j,parent,parentSpace) ∧
        (s.processes i).state = .unused ∧ space.isKernel=false ∧
        r.pid=s.nextTaskId ∧ r.ppid=current ∧ r.state = .running ∧ r.space=some space ∧
        processFork current work vfsForked release s =
          ((s.nextTaskId : Int), s.launch m space i r) := by
  unfold processFork
  split
  · rename_i j parent parentSpace i hcurrent hfree
    obtain ⟨-,-,hpid,-⟩ := currentProcess_some hcurrent
    split
    · exact Or.inl ⟨_,rfl⟩
    split
    · exact Or.inl ⟨_,rfl⟩
    rename_i space m2 hclone
    have hk := vmmSpaceCloneCow_isKernel hclone
    split
    · rename_i htask
      obtain ⟨m3,rfl⟩ := taskCreateInSpace_none htask
      exact Or.inl ⟨_,rfl⟩
    rename_i htask
    obtain ⟨rfl,m3,rfl⟩ := taskCreateInSpace_some htask
    simp only [hk,Bool.not_false]
    split
    · exact Or.inr (Or.inl ⟨m3,space,hk,rfl⟩)
    · exact Or.inr (Or.inr ⟨j,parent,parentSpace,i,_,m3,space,hcurrent,
        freeProcessRecord_some hfree,hk,rfl,hpid,rfl,rfl,rfl⟩)
  · exact Or.inl ⟨s.machine,rfl⟩

/-- A task goes on in another space, and its record says so. -/
def Kernel.moved (m : Machine) (current : Nat) (space : VmmSpace) (i : Fin maxProcesses)
    (r : ProcessRecord) (s : Kernel) : Kernel :=
  { s with
    machine := m
    processes := update s.processes i r
    tasks := s.tasks.map
      (fun t => if t.id=current then { t with space := space, ownsSpace := true } else t) }

theorem taskReplaceAddressSpace_cases (current : Nat) (space : VmmSpace) (s : Kernel) :
    taskReplaceAddressSpace current space s=(none,s) ∨
      ∃ t, s.findTask current=some t ∧ t.ownsSpace=true ∧
        taskReplaceAddressSpace current space s=(some t.space,
          s.updateTask current (fun t => { t with space := space, ownsSpace := true })) := by
  unfold taskReplaceAddressSpace
  split
  · exact Or.inl rfl
  rename_i t ht
  split_ifs with h
  · exact Or.inl rfl
  · rw [not_or,not_or] at h
    exact Or.inr ⟨t,ht,by simpa using h.2.1,rfl⟩

/-- An exec fails and leaves the records alone, or moves the process to its new space. -/
theorem processExec_cases (current : Nat) (work : KernelWork) (file : Option (List UInt8))
    (arguments : List (List UInt8)) (s : Kernel) :
    (∃ e m, e<0 ∧ processExec current work file arguments s=(e,s.setMachine m)) ∨
      ∃ i r m space, (s.processes i).state = .running ∧ (s.processes i).pid=current ∧
        space.isKernel=false ∧ r.pid=(s.processes i).pid ∧ r.ppid=(s.processes i).ppid ∧
        r.state = .running ∧ r.space=some space ∧
        processExec current work file arguments s=(0,s.moved m current space i r) := by
  unfold processExec
  split
  · exact Or.inl ⟨_,s.machine,by decide,rfl⟩
  rename_i i hfind
  split_ifs with hrun
  · exact Or.inl ⟨_,s.machine,by decide,rfl⟩
  have hrun := not_not.mp hrun
  split
  · rename_i e m _
    refine Or.inl ⟨_,m,?_,rfl⟩
    cases e <;> decide
  rename_i image m hcreate
  rcases taskReplaceAddressSpace_cases current image.space (s.setMachine m) with
    hnone | ⟨t,-,-,hsome⟩
  · rw [hnone]
    exact Or.inl ⟨_,_,by decide,rfl⟩
  rw [hsome]
  dsimp only
  refine Or.inr ⟨i,_,_,image.space,hrun,(findProcess_some hfind).2,
    createProcessImage_isKernel hcreate,?_,?_,?_,?_,rfl⟩
  · rfl
  · rfl
  · exact hrun
  · rfl

theorem Bookkeeping.moved (b : Bookkeeping s) (m : Machine)
    {i : Fin maxProcesses} {r : ProcessRecord} (hk : space.isKernel=false)
    (hrun : (s.processes i).state = .running) (hpid : r.pid=(s.processes i).pid)
    (hspace : r.space=some space) :
    Bookkeeping (s.moved m (s.processes i).pid space i r) := by
  have hids : (s.tasks.map (fun t => if t.id=(s.processes i).pid then
      { t with space := space, ownsSpace := true } else t)).map Task.id =
        s.tasks.map Task.id := by
    rw [map_map]
    apply map_congr_left
    intro t _
    dsimp only [Function.comp]
    split_ifs <;> rfl
  have hused : (s.processes i).state ≠ .unused := by
    rw [hrun]
    decide
  have hfield {j : Fin maxProcesses} (hj : (update s.processes i r j).state ≠ .unused) :
      (s.processes j).state ≠ .unused ∧
        (update s.processes i r j).pid=(s.processes j).pid := by
    rcases eq_or_ne j i with rfl | hji
    · exact ⟨hused,by rw [update_self,hpid]⟩
    · rw [update_of_ne hji] at hj ⊢
      exact ⟨hj,rfl⟩
  refine ⟨?_,?_,?_,?_,?_,?_⟩
  · show (List.map Task.id (List.map _ s.tasks)).Nodup
    rw [hids]
    exact b.ids
  · intro t ht
    obtain ⟨u,hu,rfl⟩ := mem_map.mp ht
    have := b.fresh u hu
    split_ifs <;> exact this
  · intro t ht
    obtain ⟨u,hu,rfl⟩ := mem_map.mp ht
    have := b.kernel u hu
    split_ifs
    · simp [hk]
    · exact this
  · intro j k hj hk' h
    obtain ⟨hj,hpj⟩ := hfield hj
    obtain ⟨hk',hpk⟩ := hfield hk'
    apply b.pids j k hj hk'
    rw [← hpj,← hpk]
    exact h
  · intro j hj
    obtain ⟨hj,hpj⟩ := hfield hj
    exact lt_of_eq_of_lt hpj (b.pidFresh j hj)
  intro j hj
  dsimp only [Kernel.moved] at hj ⊢
  rcases eq_or_ne j i with rfl | hji
  · rw [update_self,hpid,hspace]
    obtain ⟨t,ht,hid,hz,-⟩ := b.running j hrun
    refine ⟨_,mem_map.mpr ⟨t,ht,rfl⟩,?_⟩
    rw [if_pos hid]
    exact ⟨hid,hz,rfl,rfl⟩
  rw [update_of_ne hji] at hj ⊢
  obtain ⟨t,ht,hid,rest⟩ := b.running j hj
  refine ⟨t,mem_map.mpr ⟨t,ht,?_⟩,hid,rest⟩
  rw [if_neg]
  rw [hid]
  intro hsame
  exact hji (b.pids j i (by rw [hj]; decide) hused hsame)

theorem Bookkeeping.cancelled (b : Bookkeeping s) (m : Machine)
    (hk : space.isKernel=false) : Bookkeeping (s.cancelled m space) := by
  apply (b.addTask ⟨s.nextTaskId,false,space,true⟩ rfl (by simp [hk]) m).endTask s.nextTaskId
  intro i hi
  exact Nat.ne_of_lt (b.pidFresh i (by rw [hi]; decide))

/-- The process is a zombie, and so is its task. -/
def Kernel.ended (current : Nat) (status : Int) (s : Kernel) : Kernel :=
  Kernel.updateTask current (fun t => { t with zombie := true })
    (match s.findProcess current with
    | none => s
    | some i => s.setProcess i { s.processes i with exitStatus := status, state := .zombie })

theorem processExit_eq (current : Nat) (status : Int) (release : Nat → List Nat) (s : Kernel) :
    processExit current status release s=removeZombies current release (s.ended current status) :=
  rfl

theorem Bookkeeping.ended (b : Bookkeeping s) (current : Nat) (status : Int) :
    Bookkeeping (s.ended current status) := by
  unfold Kernel.ended
  cases hfind : s.findProcess current with
  | none =>
    apply b.endTask
    intro i hi
    exact findProcess_none hfind i (by rw [hi]; decide)
  | some i =>
    obtain ⟨hused,hpid⟩ := findProcess_some hfind
    apply Bookkeeping.endTask
    · exact b.stopProcess i hused rfl (by simp)
    intro j hj
    dsimp only [Kernel.setProcess] at hj ⊢
    rcases eq_or_ne j i with rfl | hji
    · rw [update_self] at hj
      cases hj
    rw [update_of_ne hji] at hj ⊢
    rw [← hpid]
    intro hsame
    exact hji (b.pids j i (by rw [hj]; decide) hused hsame)

theorem Bookkeeping.processExit (b : Bookkeeping s) (current : Nat) (status : Int)
    (release : Nat → List Nat) : Bookkeeping (processExit current status release s) :=
  (b.ended current status).removeZombies current release

/-- The task that asks for a new process. -/
def Op.creator : Op → Option Nat
  | .spawn current _ _ _ _ => some current
  | .fork current _ _ _ => some current
  | _ => none

/-- The access is refused, and the page-fault handler does not repair it. -/
def Kernel.faultsFor (s : Kernel) (current : Nat) (kind : Access) (address : Nat) : Bool :=
  let lost (present : Bool) : Bool :=
    decide ((processHandlePageFault current address ⟨present,kind = .write,kind = .fetch⟩ s).1≤0)
  decide (userAddressLimit≤address) ||
    match (s.findTask current).bind (fun t => vmmSpaceQuery t.space address s.machine) with
    | none => lost false
    | some (_,flags) => !allowed kind flags && lost true

/-- The task that an operation ends. -/
def Kernel.ends (s : Kernel) : Op → Option Nat
  | .exit current _ _ => some current
  | .access current kind address _ _ =>
    if s.faultsFor current kind address then some current else none
  | _ => none

/-- All that one operation can do to tasks and records. -/
inductive Outcome (s : Kernel) (op : Op) : Kernel → Prop
  | same {s' : Kernel} (h : SameRecords s s') : Outcome s op s'
  | task (work : KernelWork) (space : VmmSpace) : Outcome s op (taskCreateInSpace work space s).2
  | launched {i : Fin maxProcesses} {r : ProcessRecord} {m : Machine} {space : VmmSpace}
      {current : Nat} (hop : op.creator=some current) (hfree : (s.processes i).state = .unused)
      (hk : space.isKernel=false) (hpid : r.pid=s.nextTaskId) (hppid : r.ppid=current)
      (hrun : r.state = .running) (hspace : r.space=some space) :
      Outcome s op (s.launch m space i r)
  | cancelled (current : Nat) (release : Nat → List Nat) (m : Machine) {space : VmmSpace}
      (hk : space.isKernel=false) :
      Outcome s op (removeZombies current release (s.cancelled m space))
  | moved {i : Fin maxProcesses} {r : ProcessRecord} {m : Machine} {space : VmmSpace}
      (hrun : (s.processes i).state = .running) (hk : space.isKernel=false)
      (hpid : r.pid=(s.processes i).pid) (hppid : r.ppid=(s.processes i).ppid)
      (hrun' : r.state = .running) (hspace : r.space=some space) :
      Outcome s op (s.moved m (s.processes i).pid space i r)
  | exited {s' : Kernel} (h : SameRecords s s') (current : Nat) (status : Int)
      (release : Nat → List Nat) (hends : s.ends op=some current) :
      Outcome s op (processExit current status release s')
  | swept (current : Nat) (release : Nat → List Nat) :
      Outcome s op (removeZombies current release s)
  | reaped {i : Fin maxProcesses} (hzombie : (s.processes i).state = .zombie) :
      Outcome s op (s.setProcess i { s.processes i with state := .unused })

theorem Outcome.refl (s : Kernel) (op : Op) : Outcome s op s := .same (SameRecords.refl s)

theorem Outcome.setMachine (s : Kernel) (op : Op) (m : Machine) : Outcome s op (s.setMachine m) :=
  .same (SameRecords.setMachine s m)

theorem Outcome.pageFault (op : Op) (current : Nat) (kind : Access) (address : Nat)
    (present : Bool) (release : Nat → List Nat)
    (hends : (processHandlePageFault current address
      ⟨present,kind = .write,kind = .fetch⟩ s).1≤0 → s.ends op=some current) :
    Outcome s op (pageFault current kind address present release s).1 := by
  obtain ⟨m,hm⟩ := processHandlePageFault_machine (s := s) current address
    ⟨present,kind = .write,kind = .fetch⟩
  have hsame := SameRecords.setMachine s m
  unfold ConeOS.Process.pageFault
  cases h : processHandlePageFault current address ⟨present,kind = .write,kind = .fetch⟩ s with
  | mk result s' =>
    rw [h] at hm hends
    have hm : s'=s.setMachine m := hm
    subst hm
    dsimp only at hends ⊢
    split_ifs with hrepaired
    · exact .same hsame
    · exact .same hsame
    · exact .exited hsame current _ release (hends (by omega))
    · exact .exited hsame current _ release (hends (by omega))

theorem Outcome.userAccess (current : Nat) (kind : Access) (address : Nat) (byte : UInt8)
    (release : Nat → List Nat) : Outcome s (.access current kind address byte release)
      (userAccess current kind address byte release s).1 := by
  have hends (h : s.faultsFor current kind address=true) :
      s.ends (.access current kind address byte release)=some current := if_pos h
  unfold ConeOS.Process.userAccess
  split
  · exact .refl s _
  next t ht =>
    split
    next hhigh =>
      exact .exited (SameRecords.refl s) current _ release
        (hends (by simp [Kernel.faultsFor,hhigh]))
    split
    next hquery =>
      exact .pageFault _ current kind address false release
        (fun h => hends (by simp [Kernel.faultsFor,ht,hquery,h]))
    next hquery =>
      split_ifs with hrefused
      · exact .pageFault _ current kind address true release
          (fun h => hends (by simp_all [Kernel.faultsFor]))
      · exact .setMachine s _ _
      · exact .refl s _

theorem step_outcome (s : Kernel) (op : Op) : Outcome s op (s.step op).1 := by
  cases op with
  | kernel steps => exact .setMachine s _ _
  | kernelTask work => exact .task work _
  | brk current requested =>
    rw [Kernel.step]
    split
    · exact .refl s _
    · exact .same (processBrk_same current requested)
  | spawn current work path argument file =>
    rw [Kernel.step]
    split
    · exact .refl s _
    rcases processSpawn_cases current work path argument file s with ⟨e,m,-,h⟩ |
      ⟨i,r,m,space,hfree,hk,hpid,hppid,hrun,hspace,h⟩
    · rw [h]
      exact .setMachine s _ m
    · rw [h]
      exact .launched rfl hfree hk hpid hppid hrun hspace
  | exec current work file arguments =>
    rw [Kernel.step]
    split
    · exact .refl s _
    rcases processExec_cases current work file arguments s with ⟨e,m,-,h⟩ |
      ⟨i,r,m,space,hrun,rfl,hk,hpid,hppid,hrun',hspace,h⟩
    · rw [h]
      exact .setMachine s _ m
    · rw [h]
      exact .moved hrun hk hpid hppid hrun' hspace
  | fork current work vfsForked release =>
    rw [Kernel.step]
    split
    · exact .refl s _
    rcases processFork_cases current work vfsForked release s with ⟨m,h⟩ | ⟨m,space,hk,h⟩ |
      ⟨j,parent,parentSpace,i,r,m,space,-,hfree,hk,hpid,hppid,hrun,hspace,h⟩
    · rw [h]
      exact .setMachine s _ m
    · rw [h]
      exact .cancelled current release m hk
    · rw [h]
      exact .launched rfl hfree hk hpid hppid hrun hspace
  | waitpid current pid release =>
    rw [Kernel.step,processWaitpid]
    split
    · exact .refl s _
    split
    · exact .refl s _
    split_ifs with hppid hstate
    · exact .refl s _
    · exact .swept current release
    · exact .reaped (not_not.mp hstate)
  | exit current status release =>
    rw [Kernel.step]
    split
    · exact .refl s _
    · exact .exited (SameRecords.refl s) current status release rfl
  | yield current release =>
    rw [Kernel.step]
    split
    · exact .refl s _
    · exact .swept current release
  | access current kind address byte release =>
    rw [Kernel.step]
    split
    · exact .refl s _
    · exact .userAccess current kind address byte release
  | copyToUser current address bytes =>
    rw [Kernel.step]
    split
    · exact .refl s _
    obtain ⟨m,hm⟩ := copyToUser_machine (s := s) current address bytes
    dsimp only
    rw [hm]
    exact .setMachine s _ m
  | mmap current hint length protection flags =>
    rw [Kernel.step]
    split
    · exact .refl s _
    · exact .same (processMmap_same current hint length protection flags)
  | munmap current address length =>
    rw [Kernel.step]
    split
    · exact .refl s _
    · exact .same (processMunmap_same current address length)

/-- Every operation keeps tasks and records together. -/
theorem Bookkeeping.step (b : Bookkeeping s) (op : Op) : Bookkeeping (s.step op).1 := by
  have h := step_outcome s op
  generalize (s.step op).1=s' at h ⊢
  cases h with
  | same h => exact b.same h
  | task work space => exact b.createTask work space
  | launched _ _ hk hpid _ _ hspace => exact b.launch _ hk hpid hspace
  | cancelled current release m hk => exact (b.cancelled m hk).removeZombies current release
  | moved hrun hk hpid _ _ hspace => exact b.moved _ hk hrun hpid hspace
  | exited h current status release _ => exact (b.same h).processExit current status release
  | swept current release => exact b.removeZombies current release
  | reaped hzombie => exact b.stopProcess _ (by rw [hzombie]; decide) rfl (by simp)

theorem Bookkeeping.boot (m : Machine) : Bookkeeping (Kernel.boot m) := by
  refine ⟨by simp [Kernel.boot],?_,?_,?_,?_,?_⟩
  · intro t ht
    rw [mem_singleton.mp ht]
    exact Nat.one_pos
  · intro t ht
    rw [mem_singleton.mp ht]
    rfl
  · intro i j hi
    exact absurd rfl hi
  · intro i hi
    exact absurd rfl hi
  · intro i hi
    cases hi

theorem Bookkeeping.run (b : Bookkeeping s) (ops : List Op) :
    Bookkeeping (Kernel.run ops s).1 := by
  induction ops generalizing s with
  | nil => exact b
  | cons op ops ih => exact ih (b.step op)

end Calls

end ConeOS.Process
