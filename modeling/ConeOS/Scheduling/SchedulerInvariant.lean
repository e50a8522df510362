import ConeOS.Scheduling.Effect
import Mathlib.Data.List.Induction

namespace ConeOS.Scheduling

open Scheduler List

section Steps

variable {aside : Nat → Prop} {s m s' : Scheduler} {kept gone moved fresh : List Task} {t : Task}

theorem eq_of_id_eq (inv : SchedulerInv s) {u : Task} (ht : t ∈ s.tasks) (hu : u ∈ s.tasks)
    (h : t.id=u.id) : t=u :=
  inj_on_of_nodup_map inv.ids ht hu h

theorem releases_id {r : Release} (h : r ∈ releases t) : r.id=t.id := by
  unfold releases at h
  split_ifs at h <;> simp only [mem_append,mem_cons,not_mem_nil,or_false] at h
  · rcases h with (rfl | rfl) | rfl <;> rfl
  · rcases h with rfl | rfl <;> rfl

theorem Effect.thenMoves (h : Effect aside s m kept gone m.tasks [])
    (hm : List.Forall₂ (Moves s.pitUptimeMs aside) m.tasks s'.tasks)
    (hnext : s'.nextTaskId=m.nextTaskId) (hrel : s'.released=m.released) :
    Effect aside s s' kept gone s'.tasks [] where
  split := h.split
  head := h.head
  zombies := h.zombies
  moves := forall₂_moves_trans h.moves hm
  tasks := by rw [append_nil]
  comes := Or.inl rfl
  nextTaskId := hnext.trans h.nextTaskId
  released := hrel.trans h.released

section Consequences

variable (h : Effect aside s s' kept gone moved fresh) {t : Task}
include h

theorem Effect.kept_mem (ht : t ∈ kept) : t ∈ s.tasks :=
  h.split.subset (mem_append_left _ ht)

theorem Effect.kept_or_gone (ht : t ∈ s.tasks) : t ∈ kept ∨ t ∈ gone :=
  mem_append.mp (h.split.symm.subset ht)

theorem Effect.gone_mem (ht : t ∈ gone) : t ∈ s.tasks :=
  h.split.subset (mem_append_right _ ht)

theorem Effect.origin {t' : Task} (ht' : t' ∈ s'.tasks) :
    (∃ t ∈ kept, Moves s.pitUptimeMs aside t t') ∨ t'.id=s.nextTaskId := by
  rw [h.tasks,mem_append] at ht'
  rcases ht' with ht' | ht'
  · obtain ⟨t,ht,hmoves⟩ := forall₂_moves_source h.moves ht'
    exact Or.inl ⟨t,ht,hmoves⟩
  rcases h.comes with hf | ⟨owns,hf⟩
  · rw [hf] at ht'
    cases ht'
  · rw [hf,mem_singleton] at ht'
    exact Or.inr (by rw [ht'])

theorem Effect.released_gone {r : Release} (hr : r ∈ s'.released) :
    r ∈ s.released ∨ ∃ t ∈ gone, r.id=t.id := by
  rw [h.released,mem_append,mem_flatMap] at hr
  rcases hr with hr | ⟨t,ht,hr⟩
  · exact Or.inl hr
  · exact Or.inr ⟨t,ht,releases_id hr⟩

variable (inv : SchedulerInv s)
include inv

theorem Effect.split_ids : (kept.map Task.id ++ gone.map Task.id).Nodup := by
  rw [← map_append]
  exact (h.split.map Task.id).nodup_iff.mpr inv.ids

theorem Effect.gone_disjoint {u : Task} (ht : t ∈ kept) (hu : u ∈ gone) : t.id≠u.id :=
  (nodup_append.mp (h.split_ids inv)).2.2 _ (mem_map_of_mem ht) _
    (mem_map_of_mem hu)

/-- The part of the invariant that follows from what a step does to the list. -/
theorem Effect.keepsInv (hothers : ∀ t ∈ s'.before ++ s'.after, t.state ≠ .running)
    (hhere : s'.yieldDue=false → s'.current.state = .running)
    (hdue : s'.yieldDue=true → s'.current.state = .sleeping ∨ s'.current.state = .zombie) :
    SchedulerInv s' := by
  have hbelow : ∀ t ∈ s'.tasks, t.id<s'.nextTaskId := by
    intro t' ht'
    rw [h.nextTaskId]
    rw [h.tasks,mem_append] at ht'
    rcases ht' with ht' | ht'
    · obtain ⟨t,ht,hmoves⟩ := forall₂_moves_source h.moves ht'
      rw [hmoves.id]
      exact Nat.lt_add_right _ (inv.below t (h.kept_mem ht))
    rcases h.comes with hf | ⟨owns,hf⟩
    · rw [hf] at ht'
      cases ht'
    · rw [hf,mem_singleton] at ht'
      simp [ht',hf]
  refine ⟨?_,hbelow,?_,hothers,hhere,hdue,?_,?_⟩
  · -- the new id is above all others
    rw [h.tasks,map_append,forall₂_moves_ids h.moves]
    have hkept := (nodup_append.mp (h.split_ids inv)).1
    rcases h.comes with hf | ⟨owns,hf⟩
    · simpa [hf] using hkept
    rw [hf,map_singleton,nodup_append]
    refine ⟨hkept,nodup_singleton _,?_⟩
    intro a ha b hb
    obtain ⟨t,ht,rfl⟩ := mem_map.mp ha
    rw [mem_singleton.mp hb]
    exact Nat.ne_of_lt (inv.below t (h.kept_mem ht))
  · have hhead : moved.head?.map Task.id=some 0 := by
      have hids := congrArg List.head? (forall₂_moves_ids h.moves)
      rw [List.head?_map,List.head?_map,h.head,inv.first] at hids
      exact hids
    rw [h.tasks]
    cases hmoved : moved with
    | nil =>
      rw [hmoved] at hhead
      cases hhead
    | cons t ts =>
      rw [hmoved] at hhead
      exact hhead
  · intro t' ht' r hr
    rcases h.origin ht' with ⟨t,ht,hmoves⟩ | hnew <;>
      rcases h.released_gone hr with hr | ⟨u,hu,hid⟩
    · rw [hmoves.id]
      exact inv.unreleased t (h.kept_mem ht) r hr
    · rw [hmoves.id,hid]
      exact (h.gone_disjoint inv ht hu).symm
    · rw [hnew]
      exact Nat.ne_of_lt (inv.past r hr)
    · rw [hnew,hid]
      exact Nat.ne_of_lt (inv.below u (h.gone_mem hu))
  · intro r hr
    rw [h.nextTaskId]
    rcases h.released_gone hr with hr | ⟨u,hu,hid⟩
    · exact Nat.lt_add_right _ (inv.past r hr)
    · rw [hid]
      exact Nat.lt_add_right _ (inv.below u (h.gone_mem hu))

end Consequences

/-- What a step leaves, together with the invariant. -/
def StepSpec (aside : Nat → Prop) (s s' : Scheduler) : Prop :=
  SchedulerInv s' ∧ ∃ kept gone moved fresh, Effect aside s s' kept gone moved fresh

theorem StepSpec.of_moves (inv : SchedulerInv s)
    (hm : List.Forall₂ (Moves s.pitUptimeMs aside) s.tasks s'.tasks)
    (hnext : s'.nextTaskId=s.nextTaskId) (hrel : s'.released=s.released)
    (hothers : ∀ t ∈ s'.before ++ s'.after, t.state ≠ .running)
    (hhere : s'.yieldDue=false → s'.current.state = .running)
    (hdue : s'.yieldDue=true → s'.current.state = .sleeping ∨ s'.current.state = .zombie) :
    StepSpec aside s s' :=
  have heffect := Effect.of_moves hm hnext hrel
  ⟨heffect.keepsInv inv hothers hhere hdue,_,_,_,_,heffect⟩

theorem schedule_true (s : Scheduler) : schedule true s=schedule false (removeZombies s) := by
  simp [schedule]

theorem removeZombies_setCurrent (state : TaskState) (s : Scheduler) :
    removeZombies (s.setCurrent state)=(removeZombies s).setCurrent state := by
  unfold removeZombies setCurrent
  cases s.before <;> rfl

theorem removeZombies_keeps (ht : t ∈ s.before ++ s.after) (hz : t.state ≠ .zombie) :
    t ∈ (removeZombies s).before ++ (removeZombies s).after := by
  have hkeep : isZombie t=false := by simpa [isZombie] using hz
  unfold removeZombies
  cases hb : s.before with
  | nil =>
    rw [hb,nil_append] at ht
    simp [ht,hkeep]
  | cons head before =>
    rw [hb] at ht
    simp only [cons_append,mem_cons,mem_append,mem_filter,hkeep,Bool.not_false,and_true] at ht ⊢
    exact ht

theorem SchedulerInv.exists_ready (inv : SchedulerInv s) (hawake : s.kernelAwake=true)
    (hstuck : s.current.state = .zombie ∨ s.current.state = .sleeping) :
    ∃ t ∈ s.before ++ s.after, t.state = .ready := by
  obtain ⟨t,ht,-,hready⟩ := Scheduling.exists_ready inv.others hawake (by
    rcases hstuck with h | h <;> simp [Task.awake,h])
  exact ⟨t,ht,hready⟩

theorem StepSpec.switch (inv : SchedulerInv s) (h : Effect aside s m kept gone m.tasks [])
    (hticks : m.ticks=s.ticks) (hothers : ∀ t ∈ m.before ++ m.after, t.state ≠ .running)
    (hgo : m.current.state = .zombie ∨ m.current.state = .sleeping →
      ∃ t ∈ m.before ++ m.after, t.state = .ready) :
    StepSpec aside s (schedule false m) := by
  obtain ⟨hmoves,hrun,hrest,hnext,hrel,hdue⟩ := switch_effect m hothers hgo
  have hnow : m.pitUptimeMs=s.pitUptimeMs := by simp [pitUptimeMs,hticks]
  rw [hnow] at hmoves
  have heffect := h.thenMoves hmoves hnext hrel
  refine ⟨heffect.keepsInv inv hrest (fun _ => hrun) ?_,_,_,_,_,heffect⟩
  intro hyield
  rw [hdue] at hyield
  cases hyield

theorem StepSpec.taskYield (inv : SchedulerInv s) (hawake : s.kernelAwake=true) :
    StepSpec aside s (taskYield s) := by
  obtain ⟨gone,heffect⟩ := removeZombies_effect s
  unfold Scheduling.taskYield
  rw [schedule_true]
  refine StepSpec.switch inv heffect (removeZombies_counters s).1 ?_ ?_
  · exact fun t ht => inv.others t (removeZombies_others s t ht)
  rw [removeZombies_current]
  intro hstuck
  obtain ⟨t,ht,hready⟩ := inv.exists_ready hawake hstuck
  exact ⟨t,removeZombies_keeps ht (by simp [hready]),hready⟩

theorem StepSpec.taskPreempt (inv : SchedulerInv s) (hawake : s.kernelAwake=true) :
    StepSpec aside s (taskPreempt s) := by
  unfold Scheduling.taskPreempt
  split_ifs
  · exact StepSpec.switch inv (Effect.of_moves (forall₂_moves_refl _) rfl rfl) rfl inv.others
      (inv.exists_ready hawake)
  · exact StepSpec.of_moves inv (forall₂_moves_refl _) rfl rfl inv.others inv.here inv.due

theorem StepSpec.taskBlockCurrentIf (inv : SchedulerInv s) (hnot : s.yieldDue=false)
    (shouldBlock : Bool) (haside : shouldBlock=true → aside s.current.id) :
    StepSpec aside s (taskBlockCurrentIf shouldBlock s) := by
  unfold Scheduling.taskBlockCurrentIf
  split_ifs with hblock
  · exact StepSpec.of_moves inv (forall₂_moves_refl _) rfl rfl inv.others inv.here inv.due
  obtain ⟨gone,heffect⟩ := removeZombies_effect s
  have hrun := inv.here hnot
  unfold Scheduling.taskYield
  rw [schedule_true,removeZombies_setCurrent]
  have hmark : List.Forall₂ (Moves s.pitUptimeMs aside) (removeZombies s).tasks
      ((removeZombies s).setCurrent .blocked).tasks := by
    refine setCurrent_moves _ (Moves.of_awake rfl rfl ?_ ?_ ?_) <;>
      simp_all [removeZombies_current]
  refine StepSpec.switch inv (heffect.thenMoves hmark rfl rfl) (removeZombies_counters s).1 ?_ ?_
  · exact fun t ht => inv.others t (removeZombies_others s t ht)
  · simp [setCurrent]

theorem StepSpec.removeZombies (inv : SchedulerInv s) : StepSpec aside s (removeZombies s) := by
  obtain ⟨gone,heffect⟩ := removeZombies_effect s
  refine ⟨heffect.keepsInv inv ?_ ?_ ?_,_,_,_,_,heffect⟩
  · exact fun t ht => inv.others t (removeZombies_others s t ht)
  · rw [(removeZombies_counters s).2.2,removeZombies_current]
    exact inv.here
  · rw [(removeZombies_counters s).2.2,removeZombies_current]
    exact inv.due

theorem StepSpec.taskCreateInSpace (inv : SchedulerInv s)
    (task stack faultStack kernelSpace : Bool) :
    StepSpec aside s (taskCreateInSpace task stack faultStack kernelSpace s) := by
  unfold Scheduling.taskCreateInSpace
  split_ifs
  · exact StepSpec.of_moves inv (forall₂_moves_refl _) rfl rfl inv.others inv.here inv.due
  let new : Task := ⟨s.nextTaskId,.ready,!kernelSpace,0⟩
  have heffect : Effect aside s { s with after := s.after ++ [new], nextTaskId := s.nextTaskId+1 }
      s.tasks [] s.tasks [new] :=
    { split := by rw [append_nil]
      head := rfl
      zombies := by simp
      moves := forall₂_moves_refl _
      tasks := by simp [tasks]
      comes := Or.inr ⟨_,rfl⟩
      nextTaskId := rfl
      released := by simp }
  refine ⟨heffect.keepsInv inv ?_ inv.here inv.due,_,_,_,_,heffect⟩
  intro t ht
  rw [← append_assoc,mem_append,mem_singleton] at ht
  rcases ht with ht | rfl
  · exact inv.others t ht
  · simp

theorem StepSpec.taskWakeBlocked (inv : SchedulerInv s) : StepSpec aside s (taskWakeBlocked s) := by
  refine StepSpec.of_moves inv (mapTasks_moves _ wakeBlocked_moves) rfl rfl ?_ ?_ ?_
  · intro t ht
    simp only [Scheduling.taskWakeBlocked,mapTasks,← map_append,mem_map] at ht
    obtain ⟨u,hu,rfl⟩ := ht
    unfold wakeBlocked
    split_ifs
    · simp
    · exact inv.others u hu
  · intro hyield
    have hrun := inv.here hyield
    simp [Scheduling.taskWakeBlocked,mapTasks,wakeBlocked,hrun]
  · intro hyield
    rcases inv.due hyield with hs | hs <;>
      simp [Scheduling.taskWakeBlocked,mapTasks,wakeBlocked,hs]

theorem StepSpec.taskSleepMs (inv : SchedulerInv s) (hawake : s.kernelAwake=true)
    (hnot : s.yieldDue=false) (milliseconds : Nat)
    (haside : milliseconds≠0 → aside s.current.id) :
    StepSpec aside s (taskSleepMs milliseconds s) := by
  unfold Scheduling.taskSleepMs
  split_ifs with hzero
  · exact StepSpec.taskYield inv hawake
  · refine StepSpec.of_moves inv ?_ rfl rfl inv.others (by simp) (by simp)
    refine rel_append (forall₂_moves_refl _) (List.Forall₂.cons ?_ (forall₂_moves_refl _))
    exact Moves.of_awake rfl rfl (by simp [inv.here hnot]) (by simp [inv.here hnot])
      (.inl (haside hzero))

theorem StepSpec.taskExitCurrent (inv : SchedulerInv s) (hnot : s.yieldDue=false)
    (haside : aside s.current.id) :
    StepSpec aside s (taskExitCurrent s) := by
  refine StepSpec.of_moves inv ?_ rfl rfl inv.others ?_ ?_
  · exact setCurrent_moves _ (Moves.of_awake rfl rfl (by simp [inv.here hnot])
      (by simp [inv.here hnot]) (.inl haside))
  · simp [Scheduling.taskExitCurrent]
  · simp [Scheduling.taskExitCurrent,setCurrent]

theorem StepSpec.taskCancelReady (inv : SchedulerInv s) {id : Nat} (haside : aside id) :
    StepSpec aside s (taskCancelReady id s) := by
  unfold Scheduling.taskCancelReady
  obtain ⟨hbefore,hafter⟩ := forall_mem_append.mp inv.others
  split_ifs
  · refine StepSpec.of_moves inv ?_ rfl rfl ?_ inv.here inv.due
    · exact rel_append (cancelFirst_moves haside _) (forall₂_moves_refl _)
    · exact forall_mem_append.mpr ⟨cancelFirst_notRunning hbefore,hafter⟩
  · exact StepSpec.of_moves inv (forall₂_moves_refl _) rfl rfl inv.others inv.here inv.due
  refine StepSpec.of_moves inv ?_ rfl rfl ?_ inv.here inv.due
  · exact rel_append (forall₂_moves_refl _)
      (List.Forall₂.cons (Moves.refl _) (cancelFirst_moves haside _))
  · exact forall_mem_append.mpr ⟨hbefore,cancelFirst_notRunning hafter⟩

theorem StepSpec.awake (h : StepSpec aside s s') (hkernel : ¬aside 0) (hawake : s.kernelAwake=true) :
    s'.kernelAwake=true := by
  obtain ⟨-,kept,gone,moved,fresh,heffect⟩ := h
  obtain ⟨t,ht,hid,hstate⟩ := kernelAwake_iff.mp hawake
  have hkept : t ∈ kept := by
    refine (heffect.kept_or_gone ht).resolve_right (fun hgone => ?_)
    simp [Task.awake,(heffect.zombies t hgone).1] at hstate
  obtain ⟨t',ht',hmoves⟩ := forall₂_moves_target heffect.moves hkept
  refine kernelAwake_iff.mpr ⟨t',?_,hmoves.id.trans hid,hmoves.awake (hid ▸ hkernel) hstate⟩
  rw [heffect.tasks]
  exact mem_append_left _ ht'

end Steps

/-- The calling task blocks, sleeps or exits. -/
def Op.setsAside : Op → Bool
  | .blockIf shouldBlock => shouldBlock
  | .sleep milliseconds => milliseconds≠0
  | .exit => true
  | _ => false

/-- The tasks that an operation stops from being ready or running. -/
def Op.aside (s : Scheduler) (op : Op) (id : Nat) : Prop :=
  (op.setsAside=true ∧ s.current.id=id) ∨ op=.cancelReady id

/-- The kernel's task 0 does not block, sleep or exit in the run. -/
def keepsKernel : Scheduler → List Op → Bool
  | _, [] => true
  | s, op::ops => !(op.setsAside && s.current.id=0) && keepsKernel (step s op) ops

section Runs

variable {s : Scheduler}

theorem step_spec (inv : SchedulerInv s) (hawake : s.kernelAwake=true) (op : Op) :
    StepSpec (op.aside s) s (step s op) := by
  have hsame : StepSpec (op.aside s) s s :=
    StepSpec.of_moves inv (forall₂_moves_refl _) rfl rfl inv.others inv.here inv.due
  unfold step
  split_ifs with hwindow
  · exact hsame
  have hfree : op.passesYield=false → s.yieldDue=false := by
    intro hop
    simpa [hop] using hwindow
  cases op with
  | create task stack faultStack kernelSpace =>
    exact StepSpec.taskCreateInSpace inv task stack faultStack kernelSpace
  | yield => exact StepSpec.taskYield inv hawake
  | preempt => exact StepSpec.taskPreempt inv hawake
  | enablePreemption =>
    exact StepSpec.of_moves inv (forall₂_moves_refl _) rfl rfl inv.others inv.here inv.due
  | blockIf shouldBlock =>
    exact StepSpec.taskBlockCurrentIf inv (hfree rfl) shouldBlock (fun h => .inl ⟨h,rfl⟩)
  | wakeBlocked => exact StepSpec.taskWakeBlocked inv
  | sleep milliseconds =>
    exact StepSpec.taskSleepMs inv hawake (hfree rfl) milliseconds
      (fun h => .inl ⟨decide_eq_true h,rfl⟩)
  | exit => exact StepSpec.taskExitCurrent inv (hfree rfl) (.inl ⟨rfl,rfl⟩)
  | cancelReady id => exact StepSpec.taskCancelReady inv (.inr rfl)
  | count => exact StepSpec.removeZombies inv
  | tick => exact StepSpec.of_moves inv (forall₂_moves_refl _) rfl rfl inv.others inv.here inv.due

theorem boot_inv : SchedulerInv boot := by
  refine ⟨?_,?_,rfl,?_,?_,?_,?_,?_⟩ <;> simp [boot,tasks]

theorem run_inv {ops : List Op} (inv : SchedulerInv s) (hawake : s.kernelAwake=true)
    (hkernel : keepsKernel s ops=true) (hcancel : Op.cancelReady 0 ∉ ops) (n : Nat) :
    SchedulerInv (run s (ops.take n)) ∧ (run s (ops.take n)).kernelAwake=true := by
  induction ops generalizing s n with
  | nil => simpa [run] using ⟨inv,hawake⟩
  | cons op ops ih =>
    cases n with
    | zero => exact ⟨inv,hawake⟩
    | succ n =>
      simp only [keepsKernel,Bool.and_eq_true,Bool.not_eq_true',Bool.and_eq_false_iff] at hkernel
      rw [mem_cons,not_or] at hcancel
      have hspec := step_spec inv hawake op
      refine ih hspec.1 (hspec.awake ?_ hawake) hkernel.2 hcancel.2 n
      rintro (⟨haside,hcur⟩ | hop)
      · simp [haside,hcur] at hkernel
      · exact hcancel.1 hop.symm

end Runs

/-- What is asked of a state: which task runs, and what the next operation, whichever it is,
does to zombies, to sleepers and to what is released. -/
structure SchedulerSafe (s : Scheduler) : Prop where
  running : s.yieldDue=false → s.tasks.filter (fun t => t.state = .running)=[s.current]
  distinct : (s.tasks.map Task.id).Nodup
  zombieStays : ∀ op, ∀ t ∈ s.tasks, t.state = .zombie →
    ∀ t' ∈ (step s op).tasks, t'.id=t.id → t'.state = .zombie
  zombieRemoved : ∀ t ∈ s.tasks, t.state = .zombie → t≠s.current →
    t.id ∉ (step s .yield).tasks.map Task.id
  unreleased : ∀ t ∈ s.tasks, ∀ r ∈ s.released, r.id≠t.id
  releasedOnRemoval : ∀ op, ∀ t ∈ s.tasks, t.id ∉ (step s op).tasks.map Task.id →
    t.state = .zombie ∧ t≠s.current ∧
      (step s op).released.filter (fun r => r.id=t.id)=releases t
  releasedOnce : ∀ op, ∀ id<s.nextTaskId, id ∉ s.tasks.map Task.id →
    (step s op).released.filter (fun r => r.id=id)=s.released.filter (fun r => r.id=id)
  sleeperStays : ∀ op, ∀ t ∈ s.tasks, t.state = .sleeping → s.pitUptimeMs<t.wakeAtMs →
    t ∈ (step s op).tasks

section Safety

variable {aside : Nat → Prop} {s s' : Scheduler} {kept gone moved fresh : List Task} {t : Task}

theorem SchedulerInv.running (inv : SchedulerInv s) (hnot : s.yieldDue=false) :
    s.tasks.filter (fun t => t.state = .running)=[s.current] := by
  obtain ⟨hbefore,hafter⟩ := forall_mem_append.mp inv.others
  have hnone : ∀ l : List Task, (∀ t ∈ l, t.state ≠ .running) →
      l.filter (fun t => t.state = .running)=[] := by
    intro l hl
    rw [filter_eq_nil_iff]
    simpa using hl
  rw [tasks,filter_append,filter_cons_of_pos (by simp [inv.here hnot]),hnone _ hbefore,
    hnone _ hafter,nil_append]

theorem releases_filter {l : List Task} (hids : (l.map Task.id).Nodup) (ht : t ∈ l) :
    (l.flatMap releases).filter (fun r => r.id=t.id)=releases t := by
  have hself : ∀ u : Task, (releases u).filter (fun r => r.id=u.id)=releases u := by
    intro u
    rw [filter_eq_self]
    intro r hr
    simpa using releases_id hr
  have hother : ∀ m : List Task, t.id ∉ m.map Task.id →
      (m.flatMap releases).filter (fun r => r.id=t.id)=[] := by
    intro m hm
    rw [filter_eq_nil_iff]
    intro r hr
    obtain ⟨u,hu,hru⟩ := mem_flatMap.mp hr
    simp only [decide_eq_true_eq,releases_id hru]
    exact fun hid => hm (hid ▸ mem_map_of_mem hu)
  induction l with
  | nil => cases ht
  | cons u us ih =>
    rw [map_cons,nodup_cons] at hids
    rw [flatMap_cons,filter_append]
    rcases mem_cons.mp ht with rfl | ht
    · rw [hself,hother us hids.1,append_nil]
    have hne : t.id≠u.id := fun hid => hids.1 (hid ▸ mem_map_of_mem ht)
    have hnone : (releases u).filter (fun r => r.id=t.id)=[] := by
      rw [filter_eq_nil_iff]
      intro r hr
      simp only [decide_eq_true_eq,releases_id hr]
      exact hne.symm
    rw [hnone,nil_append,ih hids.2 ht]

section Consequences

variable (h : Effect aside s s' kept gone moved fresh) {t : Task}
include h

theorem Effect.stays (ht : t ∈ kept) : t.id ∈ s'.tasks.map Task.id := by
  obtain ⟨t',ht',hmoves⟩ := forall₂_moves_target h.moves ht
  rw [h.tasks]
  exact mem_map.mpr ⟨t',mem_append_left _ ht',hmoves.id⟩

theorem Effect.released_once {id : Nat} (hid : id ∉ s.tasks.map Task.id) :
    s'.released.filter (fun r => r.id=id)=s.released.filter (fun r => r.id=id) := by
  have hnone : (gone.flatMap releases).filter (fun r => r.id=id)=[] := by
    rw [filter_eq_nil_iff]
    intro r hr
    obtain ⟨t,ht,hrt⟩ := mem_flatMap.mp hr
    simp only [decide_eq_true_eq,releases_id hrt]
    exact fun heq => hid (heq ▸ mem_map_of_mem (h.gone_mem ht))
  rw [h.released,filter_append,hnone,append_nil]

theorem Effect.sleeper_stays (ht : t ∈ s.tasks) (hs : t.state = .sleeping)
    (hlate : s.pitUptimeMs<t.wakeAtMs) : t ∈ s'.tasks := by
  have hkept : t ∈ kept := by
    refine (h.kept_or_gone ht).resolve_right ?_
    intro hgone
    have := (h.zombies t hgone).1
    rw [hs] at this
    cases this
  obtain ⟨t',ht',hmoves⟩ := forall₂_moves_target h.moves hkept
  rw [hmoves.sleeping hs hlate] at ht'
  rw [h.tasks]
  exact mem_append_left _ ht'

variable (inv : SchedulerInv s)
include inv

theorem Effect.moves_of_id {t' : Task} (ht : t ∈ s.tasks) (ht' : t' ∈ s'.tasks)
    (hid : t'.id=t.id) : Moves s.pitUptimeMs aside t t' := by
  rcases h.origin ht' with ⟨u,hu,hmoves⟩ | hnew
  · have hut : u=t := eq_of_id_eq inv (h.kept_mem hu) ht (hmoves.id.symm.trans hid)
    exact hut ▸ hmoves
  · exact absurd (hid.symm.trans hnew) (Nat.ne_of_lt (inv.below t ht))

theorem Effect.gone_ne_current (ht : t ∈ gone) : t≠s.current := by
  rintro rfl
  have hmem := (h.zombies s.current ht).2
  have hnodup : s.current.id ∉ (s.before ++ s.after).map Task.id := by
    have hids : (s.before.map Task.id ++ s.current.id :: s.after.map Task.id).Nodup := by
      simpa [Scheduler.tasks] using inv.ids
    rw [nodup_middle,nodup_cons,← map_append] at hids
    exact hids.1
  exact hnodup (mem_map_of_mem hmem)

theorem Effect.released_on_removal (ht : t ∈ s.tasks)
    (hout : t.id ∉ s'.tasks.map Task.id) :
    t.state = .zombie ∧ t≠s.current ∧
      s'.released.filter (fun r => r.id=t.id)=releases t := by
  have hgone : t ∈ gone := (h.kept_or_gone ht).resolve_left (fun hk => hout (h.stays hk))
  refine ⟨(h.zombies t hgone).1,h.gone_ne_current inv hgone,?_⟩
  have hold : s.released.filter (fun r => r.id=t.id)=[] := by
    rw [filter_eq_nil_iff]
    simpa using inv.unreleased t ht
  rw [h.released,filter_append,hold,nil_append]
  exact releases_filter (nodup_append.mp (h.split_ids inv)).2.1 hgone

end Consequences

theorem removeZombies_left (ht : t ∈ (removeZombies s).tasks) (hz : t.state = .zombie) :
    s.tasks.head? = some t ∨ t=s.current := by
  have hzombie : isZombie t=true := by simp [isZombie,hz]
  unfold removeZombies at ht
  cases hb : s.before with
  | nil =>
    simp only [hb,tasks,nil_append,mem_cons,mem_filter,hzombie,Bool.not_true,
      Bool.false_eq_true,and_false,or_false] at ht
    exact Or.inr ht
  | cons head before =>
    simp only [hb,tasks,cons_append,mem_cons,mem_append,mem_filter,
      hzombie,Bool.not_true,Bool.false_eq_true,and_false,or_false,false_or] at ht
    rcases ht with rfl | ht
    · exact Or.inl (by simp [tasks,hb])
    · exact Or.inr ht

theorem yield_removes (inv : SchedulerInv s) (hawake : s.kernelAwake=true)
    (ht : t ∈ s.tasks) (hz : t.state = .zombie) (hne : t≠s.current) :
    t.id ∉ (step s .yield).tasks.map Task.id := by
  have hyield : step s .yield=schedule false (removeZombies s) := by
    simp [step,Op.passesYield,perform,taskYield,schedule_true]
  obtain ⟨gone,heffect⟩ := @removeZombies_effect (fun _ => True) s
  have hothers : ∀ u ∈ (removeZombies s).before ++ (removeZombies s).after, u.state ≠ .running :=
    fun u hu => inv.others u (removeZombies_others s u hu)
  have hswitch := @switch_effect (fun _ => True) (removeZombies s) hothers (by
    rw [removeZombies_current]
    intro hstuck
    obtain ⟨u,hu,hready⟩ := inv.exists_ready hawake hstuck
    exact ⟨u,removeZombies_keeps hu (by simp [hready]),hready⟩)
  rw [hyield,forall₂_moves_ids hswitch.1]
  intro hmem
  obtain ⟨u,hu,hid⟩ := mem_map.mp hmem
  have hut : u=t := eq_of_id_eq inv (heffect.kept_mem hu) ht hid
  subst hut
  -- the head is the kernel's task, which is awake
  rcases removeZombies_left hu hz with hhead | hcur
  · have hzero := inv.first
    rw [hhead,Option.map_some,Option.some.injEq] at hzero
    obtain ⟨k,hk,hkid,hstate⟩ := kernelAwake_iff.mp hawake
    have hku : k=u := eq_of_id_eq inv hk ht (hkid.trans hzero.symm)
    simp [Task.awake,hku,hz] at hstate
  · exact hne hcur

/-- In every run in which the kernel's task 0 does not block, sleep or exit and is not
cancelled, every state reached is safe. -/
theorem scheduler_safe (ops : List Op) (hkernel : keepsKernel boot ops=true)
    (hcancel : Op.cancelReady 0 ∉ ops) (n : Nat) : SchedulerSafe (run boot (ops.take n)) := by
  obtain ⟨inv,hawake⟩ := run_inv boot_inv rfl hkernel hcancel n
  have hstep := fun op => (step_spec inv hawake op).2
  refine ⟨inv.running,inv.ids,?_,?_,inv.unreleased,?_,?_,?_⟩
  · intro op t ht hz t' ht' hid
    obtain ⟨kept,gone,moved,fresh,heffect⟩ := hstep op
    exact (heffect.moves_of_id inv ht ht' hid).zombie hz
  · intro t ht hz hne
    exact yield_removes inv hawake ht hz hne
  · intro op t ht hout
    obtain ⟨kept,gone,moved,fresh,heffect⟩ := hstep op
    exact heffect.released_on_removal inv ht hout
  · intro op id _ hid
    obtain ⟨kept,gone,moved,fresh,heffect⟩ := hstep op
    exact heffect.released_once hid
  · intro op t ht hs hlate
    obtain ⟨kept,gone,moved,fresh,heffect⟩ := hstep op
    exact heffect.sleeper_stays ht hs hlate

/-- Two tasks come and go: one sleeps and is preempted before its yield, the other exits. -/
def sampleOps : List Op :=
  [.enablePreemption,.create true true true false,.create true true true true,.yield,
    .sleep 50,.preempt,.exit,.yield,.tick,.yield,.cancelReady 1,.yield]

theorem sample_scheduler_safe :
    keepsKernel boot sampleOps=true ∧ Op.cancelReady 0 ∉ sampleOps ∧
      ∀ n, SchedulerSafe (run boot (sampleOps.take n)) :=
  have hkernel : keepsKernel boot sampleOps=true := by decide +kernel
  have hcancel : Op.cancelReady 0 ∉ sampleOps := by decide
  ⟨hkernel,hcancel,scheduler_safe sampleOps hkernel hcancel⟩

/-- Task 0 is cancelled while task 1 runs. The walk over the zombies starts behind the head of
the list and leaves it, and when task 1 exits nothing else is ready: the zombie runs again. -/
def cancelOps : List Op := [.create true true true true,.yield,.cancelReady 0,.exit]

theorem cancelled_kernel_revives :
    keepsKernel boot (cancelOps ++ [.yield])=true ∧
      (run boot cancelOps).current=⟨1,.zombie,false,0⟩ ∧
      (run boot (cancelOps ++ [.yield])).current=⟨1,.running,false,0⟩ ∧
      ⟨0,.zombie,false,0⟩ ∈ (run boot (cancelOps ++ [.yield])).tasks ∧
      ¬SchedulerSafe (run boot cancelOps) := by
  have hafter : (⟨1,.running,false,0⟩ : Task) ∈ (step (run boot cancelOps) .yield).tasks := by
    decide +kernel
  refine ⟨by decide +kernel,by decide +kernel,by decide +kernel,by decide +kernel,?_⟩
  intro hsafe
  have hzombie := hsafe.zombieStays .yield ⟨1,.zombie,false,0⟩ (by decide +kernel) rfl _ hafter rfl
  cases hzombie

end Safety

end ConeOS.Scheduling
