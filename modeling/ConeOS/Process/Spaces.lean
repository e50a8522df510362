import ConeOS.Process.Records
import ConeOS.Process.Stack
import ConeOS.Process.UserMemory

namespace ConeOS.Process

open ConeOS.Library ConeOS.Memory Kernel Function List

/-- The roots of the spaces that tasks own. -/
def ownedRoots : List Task → List Nat
  | [] => []
  | t :: ts =>
    if t.ownsSpace then t.space.pml4Physical/4096 :: ownedRoots ts else ownedRoots ts

/-- The kernel `s` and the one that has `n` for its memory run in step, every task with a
space of its own. -/
structure Paired (s : Kernel) (n : Machine) : Prop where
  inStep : InStep (ownedRoots s.tasks).toFinset s.machine n
  nodup : (ownedRoots s.tasks).Nodup
  exclusive : Exclusive (ownedRoots s.tasks).toFinset s.machine
  breaks : ∀ i, (s.processes i).state = .running →
    (s.processes i).programBreak≤userStackAddress-4096

/-- A call that does the same to both kernels and keeps them in step. -/
def Together {α : Type} (call : Kernel → α × Kernel) (s : Kernel) (n : Machine)
    (result : α → Kernel → Prop) : Prop :=
  ∃ a t n', call s=(a,t) ∧ call (s.setMachine n)=(a,t.setMachine n') ∧ Paired t n' ∧
    result a t

section Roots

variable {ts : List Task}

theorem ownedRoots_append (ts us : List Task) :
    ownedRoots (ts ++ us) = ownedRoots ts ++ ownedRoots us := by
  induction ts with
  | nil => rfl
  | cons t ts ih =>
    simp only [cons_append,ownedRoots,ih]
    split_ifs <;> rfl

theorem mem_ownedRoots {r : Nat} :
    r ∈ ownedRoots ts ↔ ∃ t ∈ ts, t.ownsSpace=true ∧ t.space.pml4Physical/4096=r := by
  induction ts with
  | nil => simp [ownedRoots]
  | cons t ts ih =>
    rw [ownedRoots]
    by_cases ho : t.ownsSpace=true
    · rw [if_pos ho,mem_cons,ih]
      constructor
      · intro h
        rcases h with rfl | ⟨u,hu,hrest⟩
        · exact ⟨t,mem_cons_self,ho,rfl⟩
        · exact ⟨u,mem_cons_of_mem _ hu,hrest⟩
      intro h
      obtain ⟨u,hu,huo,hur⟩ := h
      rcases mem_cons.mp hu with rfl | hu
      · exact Or.inl hur.symm
      · exact Or.inr ⟨u,hu,huo,hur⟩
    · rw [if_neg ho,ih]
      constructor
      · intro h
        obtain ⟨u,hu,hrest⟩ := h
        exact ⟨u,mem_cons_of_mem _ hu,hrest⟩
      intro h
      obtain ⟨u,hu,huo,hur⟩ := h
      rcases mem_cons.mp hu with rfl | hu
      · exact absurd huo ho
      · exact ⟨u,hu,huo,hur⟩

/-- No two tasks own the same space. -/
theorem ownedRoots_inj (h : (ownedRoots ts).Nodup) {t u : Task} (ht : t ∈ ts)
    (hu : u ∈ ts) (hto : t.ownsSpace=true) (huo : u.ownsSpace=true)
    (hroot : u.space.pml4Physical/4096=t.space.pml4Physical/4096) : u=t := by
  induction ts with
  | nil => cases ht
  | cons v ts ih =>
    have hrest : (ownedRoots ts).Nodup := by
      rw [ownedRoots] at h
      split_ifs at h
      · exact (nodup_cons.mp h).2
      · exact h
    have hhead {w : Task} (hw : w ∈ ts) (hwo : w.ownsSpace=true) (hvo : v.ownsSpace=true) :
        w.space.pml4Physical/4096≠v.space.pml4Physical/4096 := by
      intro heq
      rw [ownedRoots,if_pos hvo] at h
      exact (nodup_cons.mp h).1 (mem_ownedRoots.mpr ⟨w,hw,hwo,heq⟩)
    rcases mem_cons.mp ht with rfl | ht'
    · rcases mem_cons.mp hu with rfl | hu'
      · rfl
      · exact absurd hroot (hhead hu' huo hto)
    · rcases mem_cons.mp hu with rfl | hu'
      · exact absurd hroot.symm (hhead ht' hto huo)
      · exact ih hrest ht' hu'

theorem ownedRoots_map {f : Task → Task} (hf : ∀ t, (f t).space=t.space ∧
    (f t).ownsSpace=t.ownsSpace) (ts : List Task) : ownedRoots (ts.map f) = ownedRoots ts := by
  induction ts with
  | nil => rfl
  | cons t ts ih => simp only [map_cons,ownedRoots,hf t,ih]

theorem ownedRoots_sublist {us : List Task} (h : ts.Sublist us) :
    (ownedRoots ts).Sublist (ownedRoots us) := by
  induction h with
  | slnil => exact List.Sublist.refl _
  | cons t _ ih =>
    rw [ownedRoots.eq_2 t]
    split_ifs
    · exact ih.cons _
    · exact ih
  | cons_cons t _ ih =>
    rw [ownedRoots,ownedRoots]
    split_ifs
    · exact ih.cons_cons _
    · exact ih

end Roots

namespace Paired

variable {s : Kernel} {n : Machine}

theorem root_mem {t : Task} (ht : t ∈ s.tasks) (ho : t.ownsSpace=true) :
    t.space.pml4Physical/4096 ∈ (ownedRoots s.tasks).toFinset :=
  mem_toFinset.mpr (mem_ownedRoots.mpr ⟨t,ht,ho,rfl⟩)

theorem current_mem (b : Bookkeeping s) {current : Nat} {i : Fin maxProcesses}
    {process : ProcessRecord} {space : VmmSpace}
    (h : s.currentProcess current=some (i,process,space)) :
    space.pml4Physical/4096 ∈ (ownedRoots s.tasks).toFinset := by
  obtain ⟨t,ht,-,-,-,ho,rfl⟩ := b.current h
  exact root_mem ht ho

theorem withMachine (h : Paired s n) {m' n' : Machine}
    (h' : InStep (ownedRoots s.tasks).toFinset m' n')
    (hx : Exclusive (ownedRoots s.tasks).toFinset m') : Paired (s.setMachine m') n' :=
  ⟨h',h.nodup,hx,h.breaks⟩

theorem setProcess (h : Paired s n) (i : Fin maxProcesses) {r : ProcessRecord}
    (hr : r.state = .running → r.programBreak≤userStackAddress-4096) :
    Paired (s.setProcess i r) n := by
  refine ⟨h.inStep,h.nodup,h.exclusive,?_⟩
  intro j hj
  dsimp only [Kernel.setProcess] at hj ⊢
  rcases eq_or_ne j i with rfl | hji
  · rw [update_self] at hj ⊢
    exact hr hj
  · rw [update_of_ne hji] at hj ⊢
    exact h.breaks j hj

theorem withTasks (h : Paired s n) {ts : List Task} (hts : ownedRoots ts = ownedRoots s.tasks)
    (next : Nat) : Paired { s with tasks := ts, nextTaskId := next } n := by
  refine ⟨?_,?_,?_,h.breaks⟩
  · show InStep (ownedRoots ts).toFinset _ _
    rw [hts]
    exact h.inStep
  · show (ownedRoots ts).Nodup
    rw [hts]
    exact h.nodup
  · show Exclusive (ownedRoots ts).toFinset _
    rw [hts]
    exact h.exclusive

end Paired

section Reap

variable {m n : Machine}

theorem removeZombiesFrom_sublist (current : Nat) (release : Nat → List Nat) (ts : List Task)
    (m : Machine) (kept : List Nat) :
    (kept ++ ownedRoots (removeZombiesFrom current release ts m).1).Sublist
      (kept ++ ownedRoots ts) := by
  rw [removeZombiesFrom_tasks]
  exact (List.Sublist.refl kept).append (ownedRoots_sublist filter_sublist)

theorem toFinset_subset_of_sublist {xs ys : List Nat} (h : xs.Sublist ys) :
    xs.toFinset ⊆ ys.toFinset := by
  intro x hx
  rw [mem_toFinset] at hx ⊢
  exact h.subset hx

/-- What `remove_zombies` does to the spaces: those of the tasks that go are destroyed, the
others are as they were. `kept` are the spaces of the tasks already passed. -/
theorem removeZombiesFrom_spec (current : Nat) (release : Nat → List Nat) (ts : List Task)
    (kept : List Nat) (hk : ∀ t ∈ ts, t.ownsSpace=true → t.space.isKernel=false)
    (hnodup : (kept ++ ownedRoots ts).Nodup)
    (h : InStep (kept ++ ownedRoots ts).toFinset m n) :
    (removeZombiesFrom current release ts n).1=(removeZombiesFrom current release ts m).1 ∧
      InStep (kept ++ ownedRoots (removeZombiesFrom current release ts m).1).toFinset
        (removeZombiesFrom current release ts m).2 (removeZombiesFrom current release ts n).2 ∧
      SameLeaves (kept ++ ownedRoots (removeZombiesFrom current release ts m).1).toFinset m
        (removeZombiesFrom current release ts m).2 ∧
      Restored (kept ++ ownedRoots (removeZombiesFrom current release ts m).1).toFinset m
        (removeZombiesFrom current release ts m).2 := by
  induction ts generalizing kept m n with
  | nil => exact ⟨rfl,h,SameLeaves.refl _ _,Restored.refl _ _⟩
  | cons t ts ih =>
    have hrest : ∀ u ∈ ts, u.ownsSpace=true → u.space.isKernel=false :=
      fun u hu => hk u (mem_cons_of_mem _ hu)
    rw [removeZombiesFrom,removeZombiesFrom]
    by_cases hzombie : t.id≠current ∧ t.zombie=true
    · simp only [if_pos hzombie]
      obtain ⟨h1,hleaves1,hrestored1⟩ := h.runKernel ((release t.id).map .give)
      generalize runKernel ((release t.id).map .give) m=m1 at *
      generalize runKernel ((release t.id).map .give) n=n1 at *
      by_cases ho : t.ownsSpace=true
      · simp only [ho,if_true]
        rw [ownedRoots,if_pos ho] at hnodup h1 hleaves1 hrestored1
        have hperm : (kept ++ t.space.pml4Physical/4096 :: ownedRoots ts).toFinset =
            insert (t.space.pml4Physical/4096) (kept ++ ownedRoots ts).toFinset := by
          ext x
          simp
        have hmiddle := nodup_middle.mp hnodup
        rw [nodup_cons] at hmiddle
        rw [hperm] at h1 hleaves1 hrestored1
        obtain ⟨h2,hleaves2,hrestored2⟩ := h1.vmmSpaceDestroy (Finset.mem_insert_self _ _)
          (hk t mem_cons_self ho)
        rw [Finset.erase_insert (by rw [mem_toFinset]; exact hmiddle.1)] at h2
        obtain ⟨htasks,h3,hleaves3,hrestored3⟩ := ih kept hrest hmiddle.2 h2
        have hsub := (toFinset_subset_of_sublist (removeZombiesFrom_sublist current release ts
          (vmmSpaceDestroy t.space m1) kept)).trans
          (Finset.subset_insert (t.space.pml4Physical/4096) _)
        exact ⟨htasks,h3,
          fun hr hv => ((hleaves3 hr hv).trans (hleaves2 (hsub hr) hv)).trans
            (hleaves1 (hsub hr) hv),
          ((hrestored1.trans hrestored2).mono hsub).trans hrestored3⟩
      · simp only [ho]
        rw [ownedRoots,if_neg ho] at hnodup h1 hleaves1 hrestored1
        obtain ⟨htasks,h3,hleaves3,hrestored3⟩ := ih kept hrest hnodup h1
        have hsub := toFinset_subset_of_sublist
          (removeZombiesFrom_sublist current release ts m1 kept)
        exact ⟨htasks,h3,fun hr hv => (hleaves3 hr hv).trans (hleaves1 (hsub hr) hv),
          (hrestored1.mono hsub).trans hrestored3⟩
    · simp only [if_neg hzombie]
      by_cases ho : t.ownsSpace=true
      · have hcons (us : List Task) : kept ++ ownedRoots (t :: us) =
            (kept ++ [t.space.pml4Physical/4096]) ++ ownedRoots us := by
          rw [ownedRoots,if_pos ho,append_assoc,singleton_append]
        rw [hcons] at hnodup h
        rw [hcons]
        obtain ⟨htasks,hall⟩ := ih _ hrest hnodup h
        exact ⟨congrArg (t :: ·) htasks,hall⟩
      · have hcons (us : List Task) : ownedRoots (t :: us) = ownedRoots us := by
          rw [ownedRoots,if_neg ho]
        rw [hcons] at hnodup h
        rw [hcons]
        obtain ⟨htasks,hall⟩ := ih _ hrest hnodup h
        exact ⟨congrArg (t :: ·) htasks,hall⟩

variable {s : Kernel}

theorem Paired.removeZombies (h : Paired s n)
    (hk : ∀ t ∈ s.tasks, t.ownsSpace=true → t.space.isKernel=false) (current : Nat)
    (release : Nat → List Nat) :
    ∃ n', removeZombies current release (s.setMachine n) =
        (removeZombies current release s).setMachine n' ∧
      Paired (removeZombies current release s) n' ∧
      SameLeaves (ownedRoots (Process.removeZombies current release s).tasks).toFinset s.machine
        (Process.removeZombies current release s).machine ∧
      Restored (ownedRoots (Process.removeZombies current release s).tasks).toFinset s.machine
        (Process.removeZombies current release s).machine := by
  have hsub := (removeZombies_tasks current release s).1
  obtain ⟨hin,hnodup,hx,hb⟩ := h
  rw [Process.removeZombies] at hsub ⊢
  rw [Process.removeZombies]
  cases hts : s.tasks with
  | nil =>
    simp only [Kernel.setMachine,hts]
    rw [hts] at hin hnodup hx
    exact ⟨n,rfl,⟨by rw [hts]; exact hin,by rw [hts]; exact hnodup,by rw [hts]; exact hx,hb⟩,
      SameLeaves.refl _ _,Restored.refl _ _⟩
  | cons main ts =>
    simp only [Kernel.setMachine,hts] at hsub ⊢
    have hcons (us : List Task) : ownedRoots (main :: us) = ownedRoots [main] ++ ownedRoots us :=
      ownedRoots_append [main] us
    rw [hts,hcons] at hin hnodup hx
    obtain ⟨htasks,h',hleaves,hrestored⟩ := removeZombiesFrom_spec current release ts
      (ownedRoots [main])
      (fun t ht => hk t (by rw [hts]; exact mem_cons_of_mem _ ht)) hnodup hin
    refine ⟨(removeZombiesFrom current release ts n).2,by rw [htasks],⟨?_,?_,?_,hb⟩,?_,?_⟩
    · rw [hcons]
      exact h'
    · rw [hcons]
      exact hnodup.sublist (removeZombiesFrom_sublist current release ts s.machine _)
    · rw [hcons]
      refine Exclusive.of_leaves ?_ hleaves
      intro r v e hr
      exact hx (toFinset_subset_of_sublist
        (removeZombiesFrom_sublist current release ts s.machine _) hr)
    · rw [hcons]
      exact hleaves
    · rw [hcons]
      exact hrestored

end Reap

section Views

variable {s s' : Kernel} {n n' m' : Machine} {id current : Nat} {t : Task}

/-- The task of this number, if it runs in a space of its own. -/
def Kernel.liveTask (s : Kernel) (id : Nat) : Option Task :=
  (s.findTask id).filter (fun t => !t.zombie && t.ownsSpace)

theorem liveTask_iff (hids : (s.tasks.map Task.id).Nodup) : s.liveTask id=some t ↔
    t ∈ s.tasks ∧ t.id=id ∧ t.zombie=false ∧ t.ownsSpace=true := by
  rw [Kernel.liveTask,Option.filter_eq_some_iff,Bool.and_eq_true,Bool.not_eq_true']
  constructor
  · rintro ⟨hfind,hz,ho⟩
    obtain ⟨hmem,hid⟩ := findTask_some hfind
    exact ⟨hmem,hid,hz,ho⟩
  · rintro ⟨hmem,rfl,hz,ho⟩
    exact ⟨findTask_of_mem hids hmem,hz,ho⟩

theorem Bookkeeping.live (b : Bookkeeping s) {i : Fin maxProcesses} {process : ProcessRecord}
    {space : VmmSpace} (h : s.currentProcess current=some (i,process,space)) :
    ∃ t, s.liveTask current=some t ∧ t.space=space := by
  obtain ⟨t,ht,-,hid,hz,ho,hspace⟩ := b.current h
  exact ⟨t,(liveTask_iff b.ids).mpr ⟨ht,hid,hz,ho⟩,hspace⟩

theorem Bookkeeping.isKernel (b : Bookkeeping s) :
    ∀ t ∈ s.tasks, t.ownsSpace=true → t.space.isKernel=false := by
  intro t ht ho
  rw [b.kernel t ht,ho]
  rfl

theorem visible_eq (b : Bookkeeping s) (h : InStep (ownedRoots s.tasks).toFinset s.machine n)
    (id : Nat) : visible s id=fun a => (s.liveTask id).bind (fun t =>
      if a<2 ^ 47 then userByte s.machine (t.space.pml4Physical/4096) a else none) := by
  funext a
  rw [visible,Kernel.liveTask]
  cases hfind : s.findTask id with
  | none => rfl
  | some t =>
    have hmem := (findTask_some hfind).1
    have hk := b.kernel t hmem
    cases hz : t.zombie with
    | true => simp [Option.filter,hz]
    | false =>
      cases ho : t.ownsSpace with
      | false => simp [Option.filter,hk,ho]
      | true => simp [Option.filter,hk,ho,hz,visibleIn_eq h (Paired.root_mem hmem ho)]

/-- A task that stays with its pages sees what it saw. -/
theorem visible_same (b : Bookkeeping s) (b' : Bookkeeping s')
    (h : InStep (ownedRoots s.tasks).toFinset s.machine n)
    (h' : InStep (ownedRoots s'.tasks).toFinset s'.machine n')
    (hmem : ∀ t, t.id=id → t.zombie=false → t.ownsSpace=true → (t ∈ s'.tasks ↔ t ∈ s.tasks))
    (hpages : ∀ t ∈ s.tasks, t ∈ s'.tasks → t.ownsSpace=true → ∀ v, v<userPages →
      pageAt s'.machine (t.space.pml4Physical/4096) v =
        pageAt s.machine (t.space.pml4Physical/4096) v) :
    visible s' id=visible s id := by
  have hlive : s'.liveTask id=s.liveTask id := by
    apply Option.ext
    intro t
    rw [liveTask_iff b'.ids,liveTask_iff b.ids]
    constructor
    · rintro ⟨ht,hid,hz,ho⟩
      exact ⟨(hmem t hid hz ho).mp ht,hid,hz,ho⟩
    · rintro ⟨ht,hid,hz,ho⟩
      exact ⟨(hmem t hid hz ho).mpr ht,hid,hz,ho⟩
  rw [visible_eq b' h',visible_eq b h,hlive]
  funext a
  cases hl : s.liveTask id with
  | none => rfl
  | some t =>
    obtain ⟨ht,-,-,ho⟩ := (liveTask_iff b.ids).mp hl
    have ht' := ((liveTask_iff b'.ids).mp (hlive.trans hl)).1
    simp only [Option.bind_some,userByte]
    split_ifs with ha
    · rw [hpages t ht ht' ho _ (vpn_lt ha)]
    · rfl

theorem runsUser_live (b : Bookkeeping s) (hfind : s.findTask current=some t)
    (huser : s.runsUser current=true) : s.liveTask current=some t ∧
      t.space.pml4Physical/4096 ∈ (ownedRoots s.tasks).toFinset := by
  have ⟨hz,ho⟩ : t.zombie=false ∧ t.ownsSpace=true := by
    simpa [Kernel.runsUser,hfind] using huser
  obtain ⟨hmem,hid⟩ := findTask_some hfind
  exact ⟨(liveTask_iff b.ids).mpr ⟨hmem,hid,hz,ho⟩,Paired.root_mem hmem ho⟩

namespace Paired

theorem visible_current (b : Bookkeeping s) (h : Paired s n) (ht : s.liveTask current=some t)
    {a : Nat} (ha : a<2 ^ 47) :
    visible s current a=userByte s.machine (t.space.pml4Physical/4096) a := by
  simp only [visible_eq b h.inStep,ht,Option.bind_some,if_pos ha]

theorem visible_samePages (b : Bookkeeping s) (h : Paired s n)
    (h' : InStep (ownedRoots s.tasks).toFinset m' n')
    (hpages : SamePages (ownedRoots s.tasks).toFinset s.machine m') :
    visible (s.setMachine m')=visible s := by
  funext id
  exact visible_same b (b.same (SameRecords.setMachine s m')) h.inStep h'
    (fun _ _ _ _ => Iff.rfl) (fun t ht _ ho v hv => hpages (root_mem ht ho) hv)

/-- Some bytes of one task have changed. -/
theorem visible_machine (b : Bookkeeping s) (h : Paired s n)
    (h' : InStep (ownedRoots s.tasks).toFinset m' n') (ht : s.liveTask current=some t)
    (P : Nat → Prop) [DecidablePred P] (hlow : ∀ a, P a → a<2 ^ 47) (x : Nat → Option UInt8)
    (hbyte : ∀ {r a}, r ∈ (ownedRoots s.tasks).toFinset → a<2 ^ 47 → userByte m' r a =
      if r=t.space.pml4Physical/4096 ∧ P a then x a else userByte s.machine r a) :
    visible (s.setMachine m') =
      update (visible s) current (fun a => if P a then x a else visible s current a) := by
  obtain ⟨hmem,hid,-,ho⟩ := (liveTask_iff b.ids).mp ht
  have hlive (id : Nat) : (s.setMachine m').liveTask id=s.liveTask id := rfl
  have hmachine : (s.setMachine m').machine=m' := rfl
  funext id a
  rw [visible_eq (s := s.setMachine m') (b.same (SameRecords.setMachine s m')) h',hlive,hmachine]
  rcases eq_or_ne id current with rfl | hne
  · rw [update_self,visible_eq b h.inStep,ht]
    simp only [Option.bind_some]
    by_cases ha : a<2 ^ 47
    · simp only [if_pos ha,hbyte (root_mem hmem ho) ha,true_and]
    · rw [if_neg ha,if_neg (fun hp => ha (hlow a hp)),if_neg ha]
  rw [update_of_ne hne,visible_eq b h.inStep]
  cases hl : s.liveTask id with
  | none => rfl
  | some u =>
    obtain ⟨humem,huid,-,huo⟩ := (liveTask_iff b.ids).mp hl
    simp only [Option.bind_some]
    split_ifs with ha
    · rw [hbyte (root_mem humem huo) ha,if_neg]
      rintro ⟨hroot,-⟩
      have := ownedRoots_inj h.nodup hmem humem ho huo hroot
      exact hne (by rw [← huid,this,hid])
    · rfl

theorem visible_removeZombies (b : Bookkeeping s) (h : Paired s n) (current : Nat)
    (release : Nat → List Nat) :
    visible (Process.removeZombies current release s)=visible s := by
  obtain ⟨n',-,h',-,hrestored⟩ := h.removeZombies b.isKernel current release
  obtain ⟨hsub,hkept⟩ := removeZombies_tasks current release s
  funext id
  exact visible_same b (b.removeZombies current release) h.inStep h'.inStep
    (fun t _ hz _ => ⟨fun ht => hsub.subset ht,fun ht => hkept t ht hz⟩)
    (fun t _ ht ho v hv => hrestored.pages (root_mem ht ho) hv)

/-- The bytes of a range are gone. -/
theorem visible_unmapped (b : Bookkeeping s) (h : Paired s n)
    (h' : InStep (ownedRoots s.tasks).toFinset m' n') (ht : s.liveTask current=some t)
    {start stop count : Nat} (hun : Unmapped (ownedRoots s.tasks).toFinset
      (t.space.pml4Physical/4096) (start/4096) count s.machine m')
    (hpages : ∀ a, start≤a ∧ a<stop ↔ start/4096≤a/4096 ∧ a/4096<start/4096+count)
    (hlow : stop≤2 ^ 47) :
    visible (s.setMachine m')=Event.apply (visible s) (.unmapped current start stop) := by
  refine h.visible_machine b h' ht (fun a => start≤a ∧ a<stop) (fun a ha => by omega)
    (fun _ => none) ?_
  intro r a hr ha
  simp only [userByte,hun.page hr (vpn_lt ha),hpages a]
  split_ifs <;> rfl

end Paired

theorem visible_endTask (s : Kernel) (current : Nat) :
    visible (s.updateTask current (fun t => { t with zombie := true })) =
      update (visible s) current (fun _ => none) := by
  have hfind (id : Nat) : (s.updateTask current (fun t => { t with zombie := true })).findTask id =
      (s.findTask id).map (fun t => if t.id=current then { t with zombie := true } else t) := by
    rw [Kernel.findTask,Kernel.updateTask,find?_map,Kernel.findTask]
    congr 2
    funext t
    dsimp only [Function.comp]
    split_ifs <;> rfl
  funext id a
  rw [visible,hfind]
  cases hs : s.findTask id with
  | none => by_cases hid : id=current <;> simp [hid,visible,hs]
  | some t =>
    have hid := (findTask_some hs).2
    by_cases hcurrent : id=current
    · subst hcurrent
      simp [hid]
    · rw [update_of_ne hcurrent,visible,hs]
      simp only [Option.map_some,hid,if_neg hcurrent]
      rfl

end Views

section Memory

variable {s : Kernel} {n : Machine} {roots : Finset Nat} {m : Machine} {space : VmmSpace}

theorem Paired.processBrk (b : Bookkeeping s) (h : Paired s n) (current requested : Nat) :
    Together (processBrk current requested) s n (fun result t =>
      s.growsApart (.brk current requested)=true →
        visible t=(brkEvents current requested result s).foldl Event.apply (visible s)) := by
  have hsame : (s.setMachine n).currentProcess current=s.currentProcess current := rfl
  unfold Together Process.processBrk brkEvents Kernel.growsApart
  rw [hsame]
  cases hcur : s.currentProcess current with
  | none => exact ⟨_,s,n,rfl,rfl,h,fun _ => rfl⟩
  | some x =>
    obtain ⟨i,process,space⟩ := x
    obtain ⟨hprocess,hrun,-,-⟩ := currentProcess_some hcur
    obtain ⟨task,htask,rfl⟩ := b.live hcur
    have hr := Paired.current_mem b hcur
    have hbreak := h.breaks i (by rw [← hprocess]; exact hrun)
    rw [← hprocess] at hbreak
    have hnothing (result : Int) (hresult : requested=0 ∨ result<0) (events : List Event) :
        visible s=(if requested=0 ∨ result<0 then [] else events).foldl Event.apply
          (visible s) := by
      rw [if_pos hresult]
      rfl
    simp only [hcur]
    by_cases hzero : requested=0
    · rw [if_pos hzero,if_pos hzero]
      exact ⟨_,s,n,rfl,rfl,h,fun _ => hnothing _ (Or.inl hzero) _⟩
    rw [if_neg hzero,if_neg hzero]
    by_cases hrange : requested<process.heapBase ∨ requested > userStackAddress-4096
    · rw [if_pos hrange,if_pos hrange]
      exact ⟨_,s,n,rfl,rfl,h,fun _ => hnothing _ (Or.inr (by decide)) _⟩
    rw [if_neg hrange,if_neg hrange]
    rw [not_or,not_lt,not_lt] at hrange
    split
    · exact ⟨_,s,n,rfl,rfl,h,fun _ => hnothing _ (Or.inr (by decide)) _⟩
    have hmoved : ¬ (requested=0 ∨ (requested : Int)<0) := by omega
    have hstack : userStackAddress-4096=8384512 := rfl
    by_cases hgrow : requested > process.programBreak
    · simp only [if_pos hgrow]
      have hbound : requested≤2 ^ 47 := by omega
      obtain ⟨h',hleaves,-⟩ := zeroBreak_spec h.inStep hr hbound
        (requested-process.programBreak) process.programBreak
      refine ⟨_,_,_,rfl,rfl,
        (h.withMachine h' (h.exclusive.of_leaves hleaves)).setProcess i (fun _ => hrange.2),?_⟩
      intro hapart
      rw [all_eq_true] at hapart
      rw [if_neg hmoved]
      refine h.visible_machine b h' htask (fun a => process.programBreak≤a ∧ a<requested)
        (fun a ha => by omega) (fun a => (visible s current a).map (fun _ => 0)) ?_
      intro r a hr' ha
      rw [zeroBreak_bytes h.inStep hr hbound (by omega) ?_ hr' ha]
      · by_cases hin : r=task.space.pml4Physical/4096
        · rw [hin,h.visible_current b htask ha]
        · simp only [hin,false_and,if_false]
      · intro a e h1 h2 he
        have := hapart (a-process.programBreak) (mem_range.mpr (by omega))
        rw [Nat.add_sub_cancel' h1,h.inStep.query hr (by omega),he] at this
        simpa [(queryFlags_flags e).2.1] using this
    · simp only [if_neg hgrow]
      have hbound : alignUpPage requested+(alignUpPage process.programBreak -
          alignUpPage requested)/4096*4096≤2 ^ 47 := by
        unfold alignUpPage
        omega
      have halign : alignUpPage requested%4096=0 := by
        unfold alignUpPage
        omega
      obtain ⟨h',hun⟩ := unmapPages_spec h.inStep hr _ hbound halign
      refine ⟨_,_,_,rfl,rfl,(h.withMachine h' (hun.exclusive h.exclusive)).setProcess i
        (fun _ => hrange.2),fun _ => ?_⟩
      rw [if_neg hmoved]
      refine h.visible_unmapped b h' htask hun ?_ ?_
      · unfold alignUpPage
        omega
      · unfold alignUpPage
        omega

theorem occupied_eq (h : InStep roots m n)
    (hr : space.pml4Physical/4096 ∈ roots) {count page : Nat}
    (hbound : page+count*4096≤2 ^ 47) :
    occupied space n count page = occupied space m count page := by
  induction count generalizing page with
  | zero => rfl
  | succ count ih =>
    rw [occupied,occupied,h.vmmSpaceTranslate_eq hr (by omega),ih (by omega)]

theorem selectFrom_eq (h : InStep roots m n)
    (process : ProcessRecord) (hr : space.pml4Physical/4096 ∈ roots)
    {length : Nat} (hlength : length ≤ mmapAddressLimit) (candidate : Nat) :
    selectFrom process space n length candidate=selectFrom process space m length candidate := by
  fun_induction selectFrom process space m length candidate with
  | case1 candidate hlimit => rw [selectFrom,if_pos hlimit]
  | case2 candidate hlimit next hnext ih =>
    rw [selectFrom,if_neg hlimit]
    dsimp only
    rw [if_pos hnext]
    exact ih
  | case3 candidate hlimit next hnext hoccupied ih =>
    have hbound : candidate+length/4096*4096≤2 ^ 47 := by
      unfold mmapAddressLimit at hlimit hlength
      omega
    rw [selectFrom,if_neg hlimit]
    dsimp only
    rw [if_neg hnext,occupied_eq h hr hbound,if_pos hoccupied]
    exact ih
  | case4 candidate hlimit next hnext hoccupied =>
    have hbound : candidate+length/4096*4096≤2 ^ 47 := by
      unfold mmapAddressLimit at hlimit hlength
      omega
    rw [selectFrom,if_neg hlimit]
    dsimp only
    rw [if_neg hnext,occupied_eq h hr hbound,if_neg hoccupied]

theorem Paired.processMmap (b : Bookkeeping s) (h : Paired s n) (current hint length : Nat)
    (protection flags : BitVec 64) :
    Together (processMmap current hint length protection flags) s n
      (fun _ t => visible t=visible s) := by
  have hsame : (s.setMachine n).currentProcess current=s.currentProcess current := rfl
  unfold Together Process.processMmap
  rw [hsame]
  cases hcur : s.currentProcess current with
  | none => exact ⟨_,s,n,rfl,rfl,h,rfl⟩
  | some x =>
    obtain ⟨i,process,space⟩ := x
    obtain ⟨hprocess,hrun,-,-⟩ := currentProcess_some hcur
    have hr := Paired.current_mem b hcur
    cases roundedMappingLength length with
    | none => exact ⟨_,s,n,rfl,rfl,h,rfl⟩
    | some rounded =>
      have hselect : selectMappingAddress process space n hint rounded =
          selectMappingAddress process space s.machine hint rounded := by
        unfold selectMappingAddress
        by_cases hlong : rounded > mmapAddressLimit-mmapAddressStart
        · rw [if_pos hlong,if_pos hlong]
        · have hlength : rounded ≤ mmapAddressLimit := by omega
          simp only [if_neg hlong,selectFrom_eq h.inStep process hr hlength]
      have hmachine : (s.setMachine n).machine=n := rfl
      dsimp only
      rw [hmachine,hselect]
      split
      · exact ⟨_,s,n,rfl,rfl,h,rfl⟩
      split
      · exact ⟨_,s,n,rfl,rfl,h,rfl⟩
      split
      · exact ⟨_,s,n,rfl,rfl,h,rfl⟩
      split
      · exact ⟨_,s,n,rfl,rfl,h,rfl⟩
      refine ⟨_,_,n,rfl,rfl,h.setProcess i (fun hx => ?_),rfl⟩
      have hbreak := h.breaks i (by rw [← hprocess]; exact hrun)
      rw [← hprocess] at hbreak
      exact hbreak

theorem roundedMappingLength_mod {length rounded : Nat}
    (h : roundedMappingLength length=some rounded) : rounded%4096=0 := by
  unfold roundedMappingLength at h
  split_ifs at h
  cases h
  omega

theorem Paired.processMunmap (b : Bookkeeping s) (h : Paired s n) (current address length : Nat) :
    Together (processMunmap current address length) s n (fun result t => visible t =
      (if result<0 then [] else [Event.unmapped current address
        (address+(roundedMappingLength length).getD 0)]).foldl Event.apply (visible s)) := by
  have hsame : (s.setMachine n).currentProcess current=s.currentProcess current := rfl
  unfold Together Process.processMunmap
  rw [hsame]
  cases hcur : s.currentProcess current with
  | none => exact ⟨_,s,n,rfl,rfl,h,rfl⟩
  | some x =>
    obtain ⟨i,process,space⟩ := x
    obtain ⟨hprocess,hrun,-,-⟩ := currentProcess_some hcur
    obtain ⟨task,htask,rfl⟩ := b.live hcur
    have hr := Paired.current_mem b hcur
    cases hrounded : roundedMappingLength length with
    | none => exact ⟨_,s,n,rfl,rfl,h,rfl⟩
    | some rounded =>
      dsimp only
      by_cases hargs : address%4096≠0 ∨ address < mmapAddressStart ∨
          address ≥ mmapAddressLimit ∨ rounded > mmapAddressLimit-address
      · rw [if_pos hargs,if_pos hargs]
        exact ⟨_,s,n,rfl,rfl,h,rfl⟩
      rw [if_neg hargs,if_neg hargs]
      split
      · exact ⟨_,s,n,rfl,rfl,h,rfl⟩
      split
      · exact ⟨_,s,n,rfl,rfl,h,rfl⟩
      have hbound : address+rounded/4096*4096≤2 ^ 47 := by
        unfold mmapAddressStart mmapAddressLimit at hargs
        omega
      obtain ⟨h',hun⟩ := unmapPages_spec h.inStep hr _ hbound (by omega)
      refine ⟨_,_,_,rfl,rfl,
        (h.withMachine h' (hun.exclusive h.exclusive)).setProcess i (fun hx => ?_),
        h.visible_unmapped b h' htask hun ?_ ?_⟩
      · have hbreak := h.breaks i (by rw [← hprocess]; exact hrun)
        rw [← hprocess] at hbreak
        exact hbreak
      · have := roundedMappingLength_mod hrounded
        intro a
        rw [Option.getD_some]
        omega
      · have := roundedMappingLength_mod hrounded
        rw [Option.getD_some]
        omega

theorem Event.apply_stored_nil (v : View) (task address : Nat) :
    Event.apply v (.stored task address [])=v := by
  rw [Event.apply,update_eq_self_iff]
  funext a
  rw [length_nil,if_neg (by omega)]

theorem Paired.copyToUser (b : Bookkeeping s) (h : Paired s n) (current address : Nat)
    (bytes : List UInt8) (huser : s.runsUser current=true) :
    ∃ k done t n', copyToUser current address bytes s=(k,done,t) ∧
      copyToUser current address bytes (s.setMachine n)=(k,done,t.setMachine n') ∧
      Paired t n' ∧ visible t=Event.apply (visible s) (.stored current address (bytes.take k)) := by
  have hsame : (s.setMachine n).findTask current=s.findTask current := rfl
  have hnothing := (Event.apply_stored_nil (visible s) current address).symm
  unfold Process.copyToUser
  rw [hsame]
  cases hfind : s.findTask current with
  | none => exact ⟨_,_,s,n,rfl,rfl,h,hnothing⟩
  | some t =>
    obtain ⟨hlive,hr⟩ := runsUser_live b hfind huser
    dsimp only
    by_cases hempty : bytes=[]
    · rw [if_pos hempty,if_pos hempty]
      exact ⟨_,_,s,n,rfl,rfl,h,hnothing⟩
    rw [if_neg hempty,if_neg hempty]
    cases hvalid : userRangeValid address bytes.length with
    | false => exact ⟨_,_,s,n,rfl,rfl,h,hnothing⟩
    | true =>
      have hbound := ((userRangeValid_iff _ _).mp hvalid).2
      have hstart : CopyState (ownedRoots s.tasks).toFinset (t.space.pml4Physical/4096) address
          bytes s.machine 0 s.machine n := CopyState.start h.inStep
      obtain ⟨k,done,m',n',hm,hn,hcopy,-⟩ := copyToUserFrom_spec rfl hr hbound
        (le_of_eq (Nat.zero_add bytes.length).symm) hstart
      have hmachine : (s.setMachine n).machine=n := rfl
      have hle := hcopy.le
      simp only [Bool.not_true,Bool.false_eq_true,if_false,hmachine,hm,hn]
      refine ⟨_,_,_,n',rfl,rfl,h.withMachine hcopy.inStep (hcopy.exclusive h.exclusive),?_⟩
      refine h.visible_machine b hcopy.inStep hlive
        (fun a => address≤a ∧ a<address+(bytes.take k).length) ?_
        (fun a => (bytes.take k)[a-address]?) ?_
      · intro a ha
        rw [length_take] at ha
        omega
      intro r a hr' ha
      rw [hcopy.byte hr' ha,length_take,Nat.min_eq_left hle]
      split_ifs with hin
      · rw [getElem?_take_of_lt (by omega),getD_eq_getElem?_getD,getElem?_eq_getElem (by omega)]
        rfl
      · rfl

end Memory

section Faults

variable {s : Kernel} {n : Machine} {address : Nat}

theorem faultFlags_flags (protection : BitVec 64) :
    hasFlag (faultFlags protection) vmmUser=true ∧
      hasFlag (faultFlags protection) vmmWritable=hasFlag protection protWrite ∧
      hasFlag (faultFlags protection) vmmCopyOnWrite=false ∧
      hasFlag (faultFlags protection) vmmNoExecute = !hasFlag protection protExec := by
  unfold faultFlags
  cases hasFlag protection protWrite <;> cases hasFlag protection protExec <;> decide

theorem Paired.processHandlePageFault (b : Bookkeeping s) (h : Paired s n) (current : Nat)
    (ha : address<2 ^ 47) (code : FaultCode) :
    Together (processHandlePageFault current address code) s n (fun result t => SameRecords s t ∧
      visible t=(if 0<result ∧ code.present=false then
        [Event.filled current (pageFloor address)] else []).foldl Event.apply (visible s)) := by
  have hsame : (s.setMachine n).currentProcess current=s.currentProcess current := rfl
  have hmachine : (s.setMachine n).machine=n := rfl
  have hrecords (m : Machine) : SameRecords s (s.setMachine m) := SameRecords.setMachine s m
  unfold Together Process.processHandlePageFault
  rw [hsame]
  cases hcur : s.currentProcess current with
  | none => exact ⟨_,s,n,rfl,rfl,h,SameRecords.refl s,by simp⟩
  | some x =>
    obtain ⟨i,process,space⟩ := x
    obtain ⟨task,htask,rfl⟩ := b.live hcur
    have hr := Paired.current_mem b hcur
    dsimp only
    cases code.present with
    | true =>
      simp only [if_true]
      cases code.write with
      | false => exact ⟨_,s,n,rfl,rfl,h,SameRecords.refl s,by simp⟩
      | true =>
        simp only [Bool.not_true,Bool.false_eq_true,if_false,hmachine]
        rcases h.inStep.vmmSpaceResolveCow hr ha with ⟨result,-,hm,hn,-⟩ |
          ⟨old,e,m',n',hm,hn,h',hpages,-,-,-,-,hleaf,hflags⟩
        · rw [hm,hn]
          exact ⟨_,_,n,rfl,rfl,h,hrecords _,by simp; rfl⟩
        rw [hm,hn]
        refine ⟨_,_,n',rfl,rfl,h.withMachine h' (h.exclusive.replace hleaf ?_),hrecords _,
          h.visible_samePages b h' hpages⟩
        intro w hw
        cases hw
        rw [hflags.cow]
        simp
    | false =>
      simp only [Bool.false_eq_true,if_false]
      split
      · exact ⟨_,s,n,rfl,rfl,h,SameRecords.refl s,by simp⟩
      have hpage : pageFloor address<2 ^ 47 := by
        unfold pageFloor
        omega
      rw [hmachine,h.inStep.vmmSpaceTranslate_eq hr hpage]
      split
      · exact ⟨_,s,n,rfl,rfl,h,SameRecords.refl s,by simp⟩
      obtain ⟨huser,-,hcow,-⟩ := faultFlags_flags (faultProtection process address)
      rcases h.inStep.fillPage (pageFloor address) hr huser with ⟨hm,hn⟩ |
        ⟨p,ok,m1,n1,m2,n2,hm,hn,hm2,hn2,hok,hfail⟩
      · simp only [hm,hn]
        exact ⟨_,_,n,rfl,rfl,h,hrecords _,rfl⟩
      simp only [hm,hn,hm2,hn2]
      cases ok with
      | true =>
        obtain ⟨h',-,-,-,hflags,hleaf,-,hone⟩ := hok rfl
        refine ⟨_,_,n2,rfl,rfl,h.withMachine h' (h.exclusive.replace hleaf ?_),hrecords _,?_⟩
        · intro w hw
          cases hw
          rw [hflags.cow,hcow]
          simp
        refine h.visible_machine b h' htask (fun a => pageFloor a=pageFloor address)
          (fun a ha => ?_) (fun _ => some 0) (fun {r a} hr' ha => ?_)
        · unfold pageFloor at ha
          omega
        have hpages : a/4096=pageFloor address/4096 ↔ pageFloor a=pageFloor address := by
          unfold pageFloor
          omega
        simp only [userByte,hone hr' (vpn_lt ha),hpages]
        split_ifs
        · exact congrArg some (readByte_zero _)
        · rfl
      | false =>
        obtain ⟨h',hpages,hleaves⟩ := hfail rfl
        exact ⟨_,_,_,rfl,rfl,h.withMachine h' (h.exclusive.of_leaves hleaves),hrecords _,
          h.visible_samePages b h' hpages⟩

theorem Paired.endTask (h : Paired s n) (id : Nat) :
    Paired (s.updateTask id (fun t => { t with zombie := true })) n := by
  refine h.withTasks (ownedRoots_map (fun t => ?_) s.tasks) s.nextTaskId
  split_ifs <;> exact ⟨rfl,rfl⟩

theorem Paired.ended (h : Paired s n) (current : Nat) (status : Int) :
    Paired (s.ended current status) n := by
  unfold Kernel.ended
  cases s.findProcess current with
  | none => exact h.endTask current
  | some i => exact (h.setProcess i (fun hx => by cases hx)).endTask current

theorem visible_ended (s : Kernel) (current : Nat) (status : Int) :
    visible (s.ended current status)=update (visible s) current (fun _ => none) := by
  unfold Kernel.ended
  cases s.findProcess current <;> exact visible_endTask _ current

theorem Paired.processExit (b : Bookkeeping s) (h : Paired s n) (current : Nat) (status : Int)
    (release : Nat → List Nat) :
    ∃ n', processExit current status release (s.setMachine n) =
        (processExit current status release s).setMachine n' ∧
      Paired (processExit current status release s) n' ∧
      visible (Process.processExit current status release s) =
        update (visible s) current (fun _ => none) := by
  have hended : (s.setMachine n).ended current status=(s.ended current status).setMachine n := by
    have hfind : (s.setMachine n).findProcess current=s.findProcess current := rfl
    rw [Kernel.ended,hfind,Kernel.ended]
    cases s.findProcess current <;> rfl
  have h' := h.ended current status
  have b' := b.ended current status
  obtain ⟨n',hn,h2,-⟩ := h'.removeZombies b'.isKernel current release
  rw [processExit_eq,processExit_eq,hended]
  exact ⟨n',hn,h2,(h'.visible_removeZombies b' current release).trans (visible_ended _ _ _)⟩

theorem Paired.pageFault (b : Bookkeeping s) (h : Paired s n) (current : Nat) (kind : Access)
    (ha : address<2 ^ 47) (present : Bool) (release : Nat → List Nat) :
    ∃ t n' events, pageFault current kind address present release s=(t,events) ∧
      pageFault current kind address present release (s.setMachine n) =
        (t.setMachine n',events) ∧ Paired t n' ∧
      visible t=events.foldl Event.apply (visible s) := by
  obtain ⟨result,t,n1,hs,hn,h1,hrecords,hview⟩ :=
    h.processHandlePageFault b current ha ⟨present,kind = .write,kind = .fetch⟩
  have b1 := b.same hrecords
  rw [Process.pageFault,Process.pageFault,hs,hn]
  dsimp only at hview ⊢
  split_ifs with hpos hpresent hneg
  · rw [if_neg (by simp [hpresent])] at hview
    exact ⟨t,n1,_,rfl,rfl,h1,hview⟩
  · rw [if_pos ⟨hpos,by simpa using hpresent⟩] at hview
    exact ⟨t,n1,_,rfl,rfl,h1,hview⟩
  · rw [if_neg (fun hx => hpos hx.1)] at hview
    obtain ⟨n2,hn2,h2,hend⟩ := h1.processExit b1 current processExitOutOfMemory release
    exact ⟨_,n2,_,rfl,by rw [hn2],h2,by rw [hend,hview]; rfl⟩
  · rw [if_neg (fun hx => hpos hx.1)] at hview
    obtain ⟨n2,hn2,h2,hend⟩ := h1.processExit b1 current (128+14) release
    exact ⟨_,n2,_,rfl,by rw [hn2],h2,by rw [hend,hview]; rfl⟩

theorem Paired.userAccess (b : Bookkeeping s) (h : Paired s n) (current : Nat) (kind : Access)
    (address : Nat) (byte : UInt8) (release : Nat → List Nat)
    (huser : s.runsUser current=true) :
    ∃ t n' events, userAccess current kind address byte release s=(t,events) ∧
      userAccess current kind address byte release (s.setMachine n) =
        (t.setMachine n',events) ∧ Paired t n' ∧
      visible t=events.foldl Event.apply (visible s) := by
  have hsame : (s.setMachine n).findTask current=s.findTask current := rfl
  have hmachine : (s.setMachine n).machine=n := rfl
  rw [Process.userAccess,Process.userAccess,hsame]
  cases hfind : s.findTask current with
  | none => exact ⟨s,n,_,rfl,rfl,h,rfl⟩
  | some t =>
    obtain ⟨hlive,hr⟩ := runsUser_live b hfind huser
    dsimp only
    by_cases hlimit : userAddressLimit≤address
    · rw [if_pos hlimit,if_pos hlimit]
      obtain ⟨n2,hn2,h2,hend⟩ := h.processExit b current (128+14) release
      exact ⟨_,n2,_,rfl,by rw [hn2],h2,hend⟩
    rw [if_neg hlimit,if_neg hlimit]
    have ha : address<2 ^ 47 := by
      unfold userAddressLimit at hlimit
      omega
    rw [hmachine,h.inStep.vmmSpaceQuery_eq hr ha,h.inStep.query hr ha]
    cases he : leafAt s.machine (t.space.pml4Physical/4096) (address/4096) with
    | none => exact h.pageFault b current kind ha false release
    | some e =>
      simp only [Option.map_some,physical_page,physical_offset]
      split
      · exact h.pageFault b current kind ha true release
      rename_i hallowed
      split
      · rename_i hkind
        have hw : hasFlag e vmmWritable=true := by
          rw [hkind,allowed,(queryFlags_flags e).2.1] at hallowed
          simp only [Bool.not_eq_true,Bool.not_eq_false',Bool.and_eq_true] at hallowed
          exact hallowed.2
        obtain ⟨h',hleaves⟩ := h.inStep.writeBytes hr (vpn_lt ha) he (address%4096) 1
          (fun _ => byte)
        refine ⟨_,_,_,rfl,rfl,h.withMachine h' (h.exclusive.of_leaves hleaves),?_⟩
        refine h.visible_machine b h' hlive (fun a => address≤a ∧ a<address + [byte].length)
          (fun a hx => by rw [length_singleton] at hx; omega) (fun a => [byte][a-address]?) ?_
        intro r a hr' hlow
        rw [userByte_writeBytes h.inStep hr (vpn_lt ha) he hw (by omega) _ hr' hlow,
          Nat.div_add_mod' address 4096,length_singleton]
        split_ifs with hin
        · rw [show a-address=0 by omega]
          rfl
        · rfl
      · exact ⟨s,n,_,rfl,rfl,h,rfl⟩

theorem Paired.processWaitpid (b : Bookkeeping s) (h : Paired s n) (current pid : Nat)
    (release : Nat → List Nat) :
    Together (processWaitpid current pid release) s n
      (fun _ t => visible t=visible s) := by
  have hfind : (s.setMachine n).findProcess pid=s.findProcess pid := rfl
  have hprocesses : (s.setMachine n).processes=s.processes := rfl
  unfold Together Process.processWaitpid
  rw [hfind]
  cases s.findProcess pid with
  | none => exact ⟨_,s,n,rfl,rfl,h,rfl⟩
  | some i =>
    dsimp only
    rw [hprocesses]
    split
    · exact ⟨_,s,n,rfl,rfl,h,rfl⟩
    split
    · obtain ⟨n',hn,h',-⟩ := h.removeZombies b.isKernel current release
      exact ⟨_,_,n',rfl,by rw [hn],h',h.visible_removeZombies b current release⟩
    · exact ⟨_,_,n,rfl,rfl,h.setProcess i (fun hx => by cases hx),rfl⟩

end Faults

end ConeOS.Process
