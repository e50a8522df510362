import ConeOS.Scheduling.Scheduler
import Mathlib.Data.List.Forall2
import Mathlib.Data.List.Perm.Basic

namespace ConeOS.Scheduling

open Scheduler List

def Task.awake (t : Task) : Bool := t.state = .ready || t.state = .running

/-- What may happen to a task in a step at the time `now`: a zombie stays one, a sleeper whose
time has not come is left alone, and only a task of `aside` stops being ready or running. -/
structure Moves (now : Nat) (aside : Nat → Prop) (t t' : Task) : Prop where
  id : t'.id=t.id
  ownsSpace : t'.ownsSpace=t.ownsSpace
  zombie : t.state = .zombie → t'.state = .zombie
  sleeping : t.state = .sleeping → now<t.wakeAtMs → t'=t
  awake : ¬aside t.id → t.awake=true → t'.awake=true

section Moves

variable {now : Nat} {aside : Nat → Prop} {s : Scheduler} {t t' : Task} {l m : List Task}

theorem Moves.refl (t : Task) : Moves now aside t t :=
  ⟨rfl,rfl,fun h => h,fun _ _ => rfl,fun _ h => h⟩

theorem Moves.trans {u v : Task} (h : Moves now aside t u) (h' : Moves now aside u v) : Moves now aside t v := by
  refine ⟨h'.id.trans h.id,h'.ownsSpace.trans h.ownsSpace,fun hz => h'.zombie (h.zombie hz),?_,
    fun hn ha => h'.awake (h.id ▸ hn) (h.awake hn ha)⟩
  intro hs hlate
  have hu := h.sleeping hs hlate
  subst hu
  exact h'.sleeping hs hlate

theorem Moves.of_awake (hid : t'.id=t.id) (howns : t'.ownsSpace=t.ownsSpace)
    (hz : t.state ≠ .zombie) (hs : t.state ≠ .sleeping) (ha : aside t.id ∨ t'.awake=true) :
    Moves now aside t t' :=
  ⟨hid,howns,fun h => absurd h hz,fun h => absurd h hs,fun hn _ => ha.resolve_left hn⟩

theorem wakeSleeper_moves (t : Task) : Moves now aside t (wakeSleeper now t) := by
  unfold wakeSleeper
  split_ifs with h
  · refine ⟨rfl,rfl,?_,?_,fun _ _ => rfl⟩
    · intro hz
      rw [h.1] at hz
      cases hz
    · intro _ hlate
      omega
  · exact Moves.refl t

theorem wakeBlocked_moves (t : Task) : Moves now aside t (wakeBlocked t) := by
  unfold wakeBlocked
  split_ifs with h
  · exact Moves.of_awake rfl rfl (by simp [h]) (by simp [h]) (.inr rfl)
  · exact Moves.refl t

theorem forall₂_moves_refl (l : List Task) : List.Forall₂ (Moves now aside) l l :=
  forall₂_same.mpr (fun t _ => Moves.refl t)

theorem forall₂_moves_trans {n : List Task} (h : List.Forall₂ (Moves now aside) l m)
    (h' : List.Forall₂ (Moves now aside) m n) : List.Forall₂ (Moves now aside) l n := by
  induction h generalizing n with
  | nil => exact h'
  | cons htu _ ih =>
    cases h' with
    | cons huv hrest => exact List.Forall₂.cons (htu.trans huv) (ih hrest)

theorem forall₂_moves_ids (h : List.Forall₂ (Moves now aside) l m) :
    m.map Task.id=l.map Task.id := by
  induction h with
  | nil => rfl
  | cons htu _ ih => rw [map_cons,map_cons,htu.id,ih]

theorem forall₂_moves_source (h : List.Forall₂ (Moves now aside) l m)
    (ht' : t' ∈ m) : ∃ t ∈ l, Moves now aside t t' := by
  induction h with
  | nil => cases ht'
  | @cons t u _ _ htu _ ih =>
    rcases mem_cons.mp ht' with rfl | ht'
    · exact ⟨t,mem_cons_self,htu⟩
    · obtain ⟨v,hv,hmoves⟩ := ih ht'
      exact ⟨v,mem_cons_of_mem _ hv,hmoves⟩

theorem forall₂_moves_target (h : List.Forall₂ (Moves now aside) l m)
    (ht : t ∈ l) : ∃ t' ∈ m, Moves now aside t t' := by
  induction h with
  | nil => cases ht
  | @cons u v _ _ huv _ ih =>
    rcases mem_cons.mp ht with rfl | ht
    · exact ⟨v,mem_cons_self,huv⟩
    · obtain ⟨w,hw,hmoves⟩ := ih ht
      exact ⟨w,mem_cons_of_mem _ hw,hmoves⟩

theorem mapTasks_moves (f : Task → Task) (hf : ∀ t, Moves now aside t (f t)) :
    List.Forall₂ (Moves now aside) s.tasks (s.mapTasks f).tasks := by
  have hall : (s.mapTasks f).tasks=s.tasks.map f := by simp [tasks,mapTasks]
  rw [hall,forall₂_map_right_iff]
  exact forall₂_same.mpr (fun t _ => hf t)

theorem setCurrent_moves (state : TaskState)
    (h : Moves now aside s.current { s.current with state := state }) :
    List.Forall₂ (Moves now aside) s.tasks (s.setCurrent state).tasks :=
  rel_append (forall₂_moves_refl _) (List.Forall₂.cons h (forall₂_moves_refl _))

theorem cancelFirst_moves {id : Nat} (haside : aside id) (l : List Task) :
    List.Forall₂ (Moves now aside) l (cancelFirst id l) := by
  induction l with
  | nil => exact List.Forall₂.nil
  | cons t ts ih =>
    unfold cancelFirst
    split_ifs with hid hready
    · exact List.Forall₂.cons (Moves.of_awake rfl rfl (by simp [hready]) (by simp [hready])
        (.inl (hid ▸ haside))) (forall₂_moves_refl _)
    · exact forall₂_moves_refl _
    · exact List.Forall₂.cons (Moves.refl t) ih

theorem cancelFirst_notRunning {id : Nat} (h : ∀ t ∈ l, t.state ≠ .running) :
    ∀ t ∈ cancelFirst id l, t.state ≠ .running := by
  induction l with
  | nil => exact h
  | cons u us ih =>
    obtain ⟨hu,hus⟩ := forall_mem_cons.mp h
    unfold cancelFirst
    split_ifs
    · exact forall_mem_cons.mpr ⟨by simp,hus⟩
    · exact forall_mem_cons.mpr ⟨hu,hus⟩
    · exact forall_mem_cons.mpr ⟨hu,ih hus⟩

end Moves

section Focus

variable {s s' : Scheduler}

theorem splitReady_some {l a b : List Task} {t : Task} (h : splitReady l=some (a,t,b)) :
    l=a ++ t :: b ∧ t.state = .ready := by
  induction l generalizing a with
  | nil => cases h
  | cons u us ih =>
    unfold splitReady at h
    split_ifs at h with hready
    · cases h
      exact ⟨rfl,hready⟩
    cases hus : splitReady us with
    | none => simp [hus] at h
    | some r =>
      obtain ⟨a',t',b'⟩ := r
      simp only [hus,Option.map_some,Option.some.injEq,Prod.mk.injEq] at h
      obtain ⟨rfl,rfl,rfl⟩ := h
      obtain ⟨hl,ht⟩ := ih hus
      exact ⟨by rw [hl,cons_append],ht⟩

theorem splitReady_none {l : List Task} (h : splitReady l=none) :
    ∀ t ∈ l, t.state ≠ .ready := by
  induction l with
  | nil => simp
  | cons u us ih =>
    unfold splitReady at h
    split_ifs at h with hready
    rw [Option.map_eq_none_iff] at h
    exact forall_mem_cons.mpr ⟨hready,ih h⟩

/-- Moving the cut does not change the list, only which task is taken out of it. -/
theorem focusNext_some (h : focusNext s=some s') :
    s'.tasks=s.tasks ∧ s'.current.state = .ready ∧
      (∀ t ∈ s'.before ++ s'.after, t=s.current ∨ t ∈ s.before ++ s.after) ∧
      s'.released=s.released ∧ s'.nextTaskId=s.nextTaskId ∧ s'.yieldDue=s.yieldDue := by
  unfold focusNext at h
  split at h
  next skipped next rest hafter =>
    cases h
    obtain ⟨hl,hready⟩ := splitReady_some hafter
    refine ⟨by simp [tasks,hl],hready,?_,rfl,rfl,rfl⟩
    intro t ht
    rw [hl]
    simp only [mem_append,mem_cons] at ht ⊢
    tauto
  next =>
    split at h
    next skipped next rest hbefore =>
      cases h
      obtain ⟨hl,hready⟩ := splitReady_some hbefore
      refine ⟨by simp [tasks,hl],hready,?_,rfl,rfl,rfl⟩
      intro t ht
      rw [hl]
      simp only [mem_append,mem_cons] at ht ⊢
      tauto
    next => cases h

theorem focusNext_none (h : focusNext s=none) :
    ∀ t ∈ s.before ++ s.after, t.state ≠ .ready := by
  unfold focusNext at h
  split at h
  · cases h
  next hafter =>
    split at h
    · cases h
    next hbefore =>
      intro t ht
      rcases mem_append.mp ht with ht | ht
      · exact splitReady_none hbefore t ht
      · exact splitReady_none hafter t ht

end Focus

/-- What a step does to the list of tasks: some zombies that are not current leave it and are
released, the others move, and at most one new task comes to its end. -/
structure Effect (aside : Nat → Prop) (s s' : Scheduler) (kept gone moved fresh : List Task) : Prop where
  split : (kept ++ gone).Perm s.tasks
  head : kept.head? = s.tasks.head?
  zombies : ∀ t ∈ gone, t.state = .zombie ∧ t ∈ s.before ++ s.after
  moves : List.Forall₂ (Moves s.pitUptimeMs aside) kept moved
  tasks : s'.tasks=moved ++ fresh
  comes : fresh=[] ∨ ∃ owns, fresh=[⟨s.nextTaskId,.ready,owns,0⟩]
  nextTaskId : s'.nextTaskId=s.nextTaskId+fresh.length
  released : s'.released=s.released ++ gone.flatMap releases

section Effects

variable {aside : Nat → Prop} {s s' : Scheduler}

theorem Effect.of_moves (h : List.Forall₂ (Moves s.pitUptimeMs aside) s.tasks s'.tasks)
    (hnext : s'.nextTaskId=s.nextTaskId) (hreleased : s'.released=s.released) :
    Effect aside s s' s.tasks [] s'.tasks [] where
  split := by rw [append_nil]
  head := rfl
  zombies := by simp
  moves := h
  tasks := by rw [append_nil]
  comes := Or.inl rfl
  nextTaskId := by simpa using hnext
  released := by simpa using hreleased

theorem removeZombies_current (s : Scheduler) : (removeZombies s).current=s.current := by
  unfold removeZombies
  split <;> rfl

theorem removeZombies_counters (s : Scheduler) : (removeZombies s).ticks=s.ticks ∧
    (removeZombies s).nextTaskId=s.nextTaskId ∧ (removeZombies s).yieldDue=s.yieldDue := by
  unfold removeZombies
  split <;> exact ⟨rfl,rfl,rfl⟩

theorem removeZombies_others (s : Scheduler) :
    ∀ t ∈ (removeZombies s).before ++ (removeZombies s).after, t ∈ s.before ++ s.after := by
  intro t ht
  unfold removeZombies at ht
  split at ht
  next hb =>
    simp only [hb,nil_append,mem_filter] at ht ⊢
    exact ht.1
  next head before hb =>
    simp only [hb,cons_append,mem_cons,mem_append,mem_filter] at ht ⊢
    tauto

theorem removeZombies_effect (s : Scheduler) :
    ∃ gone, Effect aside s (removeZombies s) (removeZombies s).tasks gone
      (removeZombies s).tasks [] := by
  cases hb : s.before with
  | nil =>
    refine ⟨s.after.filter isZombie,?_,?_,?_,forall₂_moves_refl _,by simp,Or.inl rfl,?_,?_⟩
    · simp only [removeZombies,tasks,hb,nil_append,cons_append,perm_cons]
      exact (perm_append_comm).trans (filter_append_perm isZombie s.after)
    · simp [removeZombies,tasks,hb]
    · intro t ht
      rw [mem_filter] at ht
      exact ⟨by simpa [isZombie] using ht.2,by simp [ht.1]⟩
    · simp [removeZombies,hb]
    · simp [removeZombies,hb]
  | cons head before =>
    refine ⟨(before ++ s.after).filter isZombie,?_,?_,?_,forall₂_moves_refl _,by simp,
      Or.inl rfl,?_,?_⟩
    · simp only [removeZombies,tasks,hb,cons_append,perm_cons,filter_append,append_assoc]
      have hbefore := filter_append_perm isZombie before
      have hafter := filter_append_perm isZombie s.after
      rw [perm_iff_count] at hbefore hafter ⊢
      intro t
      have h1 := hbefore t
      have h2 := hafter t
      simp only [count_append,count_cons] at h1 h2 ⊢
      omega
    · simp [removeZombies,tasks,hb]
    · intro t ht
      rw [mem_filter] at ht
      refine ⟨by simpa [isZombie] using ht.2,?_⟩
      rw [hb,cons_append]
      exact mem_cons_of_mem _ ht.1
    · simp [removeZombies,hb]
    · simp [removeZombies,hb]

/-- The kernel's task is there to be run. -/
def Scheduler.kernelAwake (s : Scheduler) : Bool :=
  s.tasks.any (fun t => t.id=0 && t.awake)

/-- The list between two operations, or in the window before a yield. -/
structure SchedulerInv (s : Scheduler) : Prop where
  ids : (s.tasks.map Task.id).Nodup
  below : ∀ t ∈ s.tasks, t.id<s.nextTaskId
  first : s.tasks.head?.map Task.id=some 0
  others : ∀ t ∈ s.before ++ s.after, t.state ≠ .running
  here : s.yieldDue=false → s.current.state = .running
  due : s.yieldDue=true → s.current.state = .sleeping ∨ s.current.state = .zombie
  unreleased : ∀ t ∈ s.tasks, ∀ r ∈ s.released, r.id≠t.id
  past : ∀ r ∈ s.released, r.id<s.nextTaskId

theorem mem_tasks {t : Task} : t ∈ s.tasks ↔ t=s.current ∨ t ∈ s.before ++ s.after := by
  simp only [tasks,mem_append,mem_cons]
  tauto

theorem kernelAwake_iff : s.kernelAwake=true ↔ ∃ t ∈ s.tasks, t.id=0 ∧ t.awake=true := by
  simp [Scheduler.kernelAwake]

theorem exists_ready (hothers : ∀ t ∈ s.before ++ s.after, t.state ≠ .running)
    (hawake : s.kernelAwake=true)
    (hcur : s.current.awake=false) :
    ∃ t ∈ s.before ++ s.after, t.id=0 ∧ t.state = .ready := by
  obtain ⟨t,ht,hid,hstate⟩ := kernelAwake_iff.mp hawake
  rcases mem_tasks.mp ht with rfl | ht
  · rw [hcur] at hstate
    cases hstate
  · simp only [Task.awake,hothers t ht,decide_false,Bool.or_false,decide_eq_true_eq] at hstate
    exact ⟨t,ht,hid,hstate⟩

/-- The rest of `schedule` after the zombies are gone. -/
theorem switch_effect (s : Scheduler) (hothers : ∀ t ∈ s.before ++ s.after, t.state ≠ .running)
    (hgo : s.current.state = .zombie ∨ s.current.state = .sleeping →
      ∃ t ∈ s.before ++ s.after, t.state = .ready) :
    List.Forall₂ (Moves s.pitUptimeMs aside) s.tasks (schedule false s).tasks ∧
      (schedule false s).current.state = .running ∧
      (∀ t ∈ (schedule false s).before ++ (schedule false s).after, t.state ≠ .running) ∧
      (schedule false s).nextTaskId=s.nextTaskId ∧ (schedule false s).released=s.released ∧
      (schedule false s).yieldDue=false := by
  unfold schedule
  simp only [Bool.false_eq_true,if_false]
  -- the current task gives up the state RUNNING
  obtain ⟨d,hd⟩ : ∃ d, d=if s.current.state = .running then s.setCurrent .ready else s := ⟨_,rfl⟩
  have hdstate : d.current.state ≠ .running ∧ d.before=s.before ∧ d.after=s.after ∧
      d.pitUptimeMs=s.pitUptimeMs ∧ d.nextTaskId=s.nextTaskId ∧ d.released=s.released := by
    rw [hd]
    split_ifs with hr
    · exact ⟨by simp [setCurrent],rfl,rfl,rfl,rfl,rfl⟩
    · exact ⟨hr,rfl,rfl,rfl,rfl,rfl⟩
  have hdmoves : List.Forall₂ (Moves s.pitUptimeMs aside) s.tasks d.tasks := by
    rw [hd]
    split_ifs with hr
    · exact setCurrent_moves _ (Moves.of_awake rfl rfl (by simp [hr]) (by simp [hr]) (.inr rfl))
    · exact forall₂_moves_refl _
  have hdcur : d.current.state = .zombie ∨ d.current.state = .sleeping →
      s.current.state = .zombie ∨ s.current.state = .sleeping := by
    rw [hd]
    split_ifs with hr
    · simp [setCurrent]
    · exact fun h => h
  rw [← hd]
  obtain ⟨hdrun,hdb,hda,hdnow,hdnext,hdrel⟩ := hdstate
  -- sleepers whose time has come are ready
  obtain ⟨w,hw⟩ : ∃ w, w = { d.mapTasks (wakeSleeper d.pitUptimeMs) with yieldDue := false } :=
    ⟨_,rfl⟩
  have hwmoves : List.Forall₂ (Moves s.pitUptimeMs aside) s.tasks w.tasks := by
    refine forall₂_moves_trans hdmoves ?_
    rw [hw,← hdnow]
    exact mapTasks_moves _ wakeSleeper_moves
  have hwother : ∀ t ∈ w.before ++ w.after, t.state ≠ .running := by
    intro t ht
    rw [hw] at ht
    simp only [mapTasks,← map_append,mem_map,hdb,hda] at ht
    obtain ⟨u,hu,rfl⟩ := ht
    unfold wakeSleeper
    split_ifs
    · simp
    · exact hothers u hu
  have hwcur : w.current.state ≠ .running := by
    rw [hw]
    simp only [mapTasks,wakeSleeper]
    split_ifs
    · simp
    · exact hdrun
  rw [← hw]
  split
  next f hf =>
    obtain ⟨htasks,hready,hmem,hrel,hnext,hdue⟩ := focusNext_some hf
    refine ⟨?_,rfl,?_,?_,?_,?_⟩
    · refine forall₂_moves_trans (m := f.tasks) (htasks ▸ hwmoves) ?_
      exact setCurrent_moves _
        (Moves.of_awake rfl rfl (by simp [hready]) (by simp [hready]) (.inr rfl))
    · intro t ht
      rcases hmem t ht with rfl | ht
      · exact hwcur
      · exact hwother t ht
    · simp [setCurrent,hnext,hw,mapTasks,hdnext]
    · simp [setCurrent,hrel,hw,mapTasks,hdrel]
    · simp [setCurrent,hdue,hw]
  next hf =>
    -- nothing else is ready, so the current task is one that can go on
    have hnone := focusNext_none hf
    have hstay : ¬ (d.current.state = .zombie ∨ d.current.state = .sleeping) := by
      intro hbad
      obtain ⟨t,ht,hready⟩ := hgo (hdcur hbad)
      refine hnone t ?_ hready
      rw [hw]
      simp only [mapTasks,← map_append,mem_map,hdb,hda]
      refine ⟨t,ht,?_⟩
      simp [wakeSleeper,hready]
    have hwz : w.current.state ≠ .zombie ∧ w.current.state ≠ .sleeping := by
      rw [not_or] at hstay
      rw [hw]
      simp only [mapTasks,wakeSleeper]
      split_ifs
      · simp
      · exact hstay
    refine ⟨?_,rfl,?_,?_,?_,?_⟩
    · exact forall₂_moves_trans hwmoves
        (setCurrent_moves _ (Moves.of_awake rfl rfl hwz.1 hwz.2 (.inr rfl)))
    · exact hwother
    · simp [setCurrent,hw,mapTasks,hdnext]
    · simp [setCurrent,hw,mapTasks,hdrel]
    · simp [setCurrent,hw]

end Effects

end ConeOS.Scheduling
