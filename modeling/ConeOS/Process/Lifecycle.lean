import ConeOS.Process.Spaces

namespace ConeOS.Process

open ConeOS.Library ConeOS.Memory Kernel Function List

section Launch

variable {s : Kernel} {n : Machine} {c current : Nat} {m' n' m : Machine} {r : ProcessRecord}
  {roots : Finset Nat} {file : List UInt8} {arguments : List (List UInt8)} {image : ProcessImage}
  {t : Task}

theorem toFinset_append_singleton (xs : List Nat) (c : Nat) :
    (xs ++ [c]).toFinset=insert c xs.toFinset := by
  ext x
  simp only [mem_toFinset,mem_append,mem_singleton,Finset.mem_insert]
  exact or_comm

/-- A new task gets a space that nobody had. -/
theorem Paired.launch (h : Paired s n) (hnew : c ∉ (ownedRoots s.tasks).toFinset)
    (h' : InStep (insert c (ownedRoots s.tasks).toFinset) m' n')
    (hx : Exclusive (insert c (ownedRoots s.tasks).toFinset) m') (i : Fin maxProcesses)
    (hr : r.programBreak≤userStackAddress-4096) :
    Paired (s.launch m' ⟨c*4096,false⟩ i r) n' := by
  have hdiv : c*4096/4096=c := Nat.mul_div_cancel _ (by omega)
  have hroots : ownedRoots (s.launch m' ⟨c*4096,false⟩ i r).tasks =
      ownedRoots s.tasks ++ [c] := by
    show ownedRoots (s.tasks ++ [_])=_
    rw [ownedRoots_append]
    simp [ownedRoots,hdiv]
  rw [mem_toFinset] at hnew
  refine ⟨?_,?_,?_,?_⟩
  · rw [hroots,toFinset_append_singleton]
    exact h'
  · rw [hroots,nodup_append]
    refine ⟨h.nodup,nodup_singleton c,?_⟩
    intro x hin y hy
    rw [mem_singleton.mp hy]
    rintro rfl
    exact hnew hin
  · rw [hroots,toFinset_append_singleton]
    exact hx
  intro j hj
  dsimp only [Kernel.launch] at hj ⊢
  rcases eq_or_ne j i with rfl | hji
  · rw [update_self]
    exact hr
  · rw [update_of_ne hji] at hj ⊢
    exact h.breaks j hj

theorem undo_space (hnew : c ∉ roots)
    (h' : InStep (insert c roots) m' n') (hrestored : Restored roots m m') :
    InStep roots (vmmSpaceDestroy ⟨c*4096,false⟩ m')
        (vmmSpaceDestroy ⟨c*4096,false⟩ n') ∧
      Restored roots m (vmmSpaceDestroy ⟨c*4096,false⟩ m') := by
  have hdiv : c*4096/4096=c := Nat.mul_div_cancel _ (by omega)
  have hmem : (⟨c*4096,false⟩ : VmmSpace).pml4Physical/4096 ∈ insert c roots := by
    rw [hdiv]
    exact Finset.mem_insert_self c roots
  obtain ⟨h2,-,hrestored2⟩ := h'.vmmSpaceDestroy hmem rfl
  rw [hdiv,Finset.erase_insert hnew] at h2
  exact ⟨h2,hrestored.trans (hrestored2.mono (Finset.subset_insert c roots))⟩

/-- What is left of a call that failed. -/
def Failed (s t : Kernel) : Prop :=
  ∃ m, t=s.setMachine m ∧ Restored (ownedRoots s.tasks).toFinset s.machine m

/-- A new task sees its image, the others what they saw. -/
theorem Paired.visible_launch (b : Bookkeeping s) (h : Paired s n) {space : VmmSpace}
    {i : Fin maxProcesses} (b' : Bookkeeping (s.launch m' space i r))
    (h' : Paired (s.launch m' space i r) n')
    (hrestored : Restored (ownedRoots s.tasks).toFinset s.machine m') :
    visible (s.launch m' space i r)=update (visible s) s.nextTaskId
      (visible (s.launch m' space i r) s.nextTaskId) := by
  funext id
  rcases eq_or_ne id s.nextTaskId with rfl | hne
  · rw [update_self]
  rw [update_of_ne hne]
  refine visible_same b b' h.inStep h'.inStep (fun t hid _ _ => ?_)
    (fun t ht _ ho v hv => hrestored.pages (Paired.root_mem ht ho) hv)
  rw [Kernel.launch,mem_append,mem_singleton,or_iff_left]
  rintro rfl
  exact hne hid.symm

theorem imageEnd_break (h : ImageBuilt file arguments c m m' image) :
    image.heapBase≤userStackAddress-4096 := by
  obtain ⟨m1,elf,helf,-,-,hbase,-⟩ := h.elf
  have hbelow := helf.below
  have hstack : userStackAddress-4096=8384512 := rfl
  rw [hbase,alignUpPage]
  omega

theorem exclusive_insert {m1 : Machine}
    (hx : Exclusive roots m) (hleaves : SameLeaves roots m m')
    (hnone : ∀ {v}, v<userPages → leafAt m1 c v=none)
    (hbuilt : ImageBuilt file arguments c m1 m' image) : Exclusive (insert c roots) m' := by
  intro r v e hr hv he
  rcases Finset.mem_insert.mp hr with rfl | hr
  · rw [hbuilt.cow hnone hv he]
    simp
  · rw [hleaves hr hv] at he
    exact hx hr hv he

theorem Paired.processSpawn (h : Paired s n) (current : Nat) (work : LaunchWork)
    (path argument : List UInt8) (file : Option (List UInt8))
    (hclean : s.machine=n) :
    Together (processSpawn current work path argument file) s n
      (fun _ t => Restored (ownedRoots s.tasks).toFinset s.machine t.machine) := by
  have hfree : (s.setMachine n).freeProcessRecord=s.freeProcessRecord := rfl
  have hmachine : (s.setMachine n).machine=n := rfl
  unfold Together Process.processSpawn
  rw [hfree]
  cases s.freeProcessRecord with
  | none => exact ⟨_,s,n,rfl,rfl,h,Restored.refl _ _⟩
  | some record =>
    dsimp only
    cases hsplit : splitArguments argument.length argument [path] with
    | none => exact ⟨_,s,n,rfl,rfl,h,Restored.refl _ _⟩
    | some arguments =>
      obtain ⟨result,m1,n1,hm1,hn1,hresult⟩ := createProcessImage_inStep h.inStep work.space
        file arguments hclean
      simp only [hmachine,hm1,hn1]
      cases result with
      | error x =>
        obtain ⟨h1,hleaves1,hrestored1⟩ := hresult
        exact ⟨_,_,n1,rfl,rfl,h.withMachine h1 (h.exclusive.of_leaves hleaves1),
          hrestored1⟩
      | ok image =>
        obtain ⟨c,m0,bytes,hnew,-,hspace,h1,hleaves1,hrestored1,hnone,hbuilt⟩ := hresult
        have hx1 := exclusive_insert h.exclusive hleaves1 hnone hbuilt
        obtain ⟨m2,n2,hm2,hn2,h2,hleaves2,hrestored2⟩ := h1.kmalloc work.launch
        have hrestored2 : Restored (ownedRoots s.tasks).toFinset s.machine m2 :=
          hrestored1.trans (hrestored2.mono (Finset.subset_insert _ _))
        have hx2 := hx1.of_leaves hleaves2
        simp only [hm2,hn2,hspace]
        cases work.launch.ok with
        | false =>
          obtain ⟨h3,hrestored3⟩ := undo_space hnew h2 hrestored2
          exact ⟨_,_,_,rfl,rfl,h.withMachine h3 (hrestored3.exclusive h.inStep h.exclusive),
            hrestored3⟩
        | true =>
          obtain ⟨m3,n3,hm3,hn3,h3,hleaves3,hrestored3⟩ := h2.kmalloc work.task
          have hrestored3 : Restored (ownedRoots s.tasks).toFinset s.machine m3 :=
            hrestored2.trans (hrestored3.mono (Finset.subset_insert _ _))
          have hmachine2 (k : Machine) : (s.setMachine k).machine=k := rfl
          have hset (k l : Machine) : (s.setMachine k).setMachine l=s.setMachine l := rfl
          simp only [taskCreateInSpace,hmachine2,hset,hm3,hn3]
          cases work.task.ok with
          | false =>
            obtain ⟨h4,hrestored4⟩ := undo_space hnew h3 hrestored3
            exact ⟨_,_,_,rfl,rfl,h.withMachine h4 (hrestored4.exclusive h.inStep h.exclusive),
              hrestored4⟩
          | true =>
            exact ⟨_,_,n3,rfl,rfl,h.launch hnew h3 (hx2.of_leaves hleaves3) record
              (imageEnd_break hbuilt),hrestored3⟩

theorem findTask_split (hids : (s.tasks.map Task.id).Nodup) {id : Nat}
    (h : s.findTask id=some t) :
    ∃ before after, s.tasks=before ++ t :: after ∧ (∀ u ∈ before, u.id≠id) ∧
      ∀ u ∈ after, u.id≠id := by
  obtain ⟨hmem,rfl⟩ := findTask_some h
  obtain ⟨before,after,hsplit⟩ := append_of_mem hmem
  rw [hsplit,map_append,map_cons] at hids
  have hmiddle := (nodup_cons.mp (nodup_middle.mp hids)).1
  rw [mem_append,not_or] at hmiddle
  refine ⟨before,after,hsplit,?_,?_⟩
  · intro u hu hid
    exact hmiddle.1 (mem_map.mpr ⟨u,hu,hid⟩)
  · intro u hu hid
    exact hmiddle.2 (mem_map.mpr ⟨u,hu,hid⟩)

/-- A task that moves to another space leaves the spaces of the others alone. -/
theorem ownedRoots_moved {before after : List Task}
    (hsplit : s.tasks=before ++ t :: after) (hid : t.id=current)
    (hbefore : ∀ u ∈ before, u.id≠current) (hafter : ∀ u ∈ after, u.id≠current)
    (space : VmmSpace) :
    ownedRoots (s.tasks.map (fun t => if t.id=current then
        { t with space := space, ownsSpace := true } else t)) =
      ownedRoots before ++ space.pml4Physical/4096 :: ownedRoots after := by
  have hsame (ts : List Task) (hts : ∀ u ∈ ts, u.id≠current) :
      ts.map (fun t => if t.id=current then { t with space := space, ownsSpace := true }
        else t)=ts := by
    rw [map_congr_left (g := fun t => t),map_id']
    intro u hu
    rw [if_neg (hts u hu)]
  rw [hsplit,map_append,map_cons,hsame before hbefore,hsame after hafter,
    if_pos hid,ownedRoots_append,ownedRoots,if_pos rfl]

theorem Paired.moved (b : Bookkeeping s) (h : Paired s n)
    (hfind : s.findTask current=some t) (ho : t.ownsSpace=true)
    (hnew : c ∉ (ownedRoots s.tasks).toFinset)
    (h' : InStep (insert c (ownedRoots s.tasks).toFinset) m' n')
    (hx : Exclusive (insert c (ownedRoots s.tasks).toFinset) m') (i : Fin maxProcesses)
    (hr : r.programBreak≤userStackAddress-4096) :
    Paired (s.moved (vmmSpaceDestroy t.space m') current ⟨c*4096,false⟩ i r)
      (vmmSpaceDestroy t.space n') := by
  have hdiv : c*4096/4096=c := Nat.mul_div_cancel _ (by omega)
  obtain ⟨hmem,hid⟩ := findTask_some hfind
  obtain ⟨before,after,hsplit,hbefore,hafter⟩ := findTask_split b.ids hfind
  have hold : ownedRoots s.tasks =
      ownedRoots before ++ t.space.pml4Physical/4096 :: ownedRoots after := by
    rw [hsplit,ownedRoots_append,ownedRoots,if_pos ho]
  have hroots : ownedRoots (s.moved (vmmSpaceDestroy t.space m') current ⟨c*4096,false⟩ i
      r).tasks = ownedRoots before ++ c :: ownedRoots after := by
    show ownedRoots (s.tasks.map _)=_
    rw [ownedRoots_moved hsplit hid hbefore hafter,hdiv]
  have hnodup := h.nodup
  rw [mem_toFinset,hold] at hnew
  rw [hold] at hnodup
  have hmiddle := nodup_cons.mp (nodup_middle.mp hnodup)
  have hset : (insert c (ownedRoots s.tasks).toFinset).erase (t.space.pml4Physical/4096) =
      (ownedRoots before ++ c :: ownedRoots after).toFinset := by
    rw [hold]
    ext x
    simp only [mem_append,not_or] at hmiddle
    simp only [mem_append,mem_cons,not_or] at hnew
    simp only [Finset.mem_erase,Finset.mem_insert,mem_toFinset,mem_append,mem_cons]
    constructor
    · tauto
    intro hor
    rcases hor with hin | rfl | hin
    · exact ⟨fun heq => hmiddle.1.1 (heq ▸ hin),Or.inr (Or.inl hin)⟩
    · exact ⟨hnew.2.1,Or.inl rfl⟩
    · exact ⟨fun heq => hmiddle.1.2 (heq ▸ hin),Or.inr (Or.inr (Or.inr hin))⟩
  obtain ⟨h2,hleaves2,-⟩ := h'.vmmSpaceDestroy
    (Finset.mem_insert_of_mem (Paired.root_mem hmem ho)) (b.isKernel t hmem ho)
  rw [hset] at h2
  refine ⟨?_,?_,?_,?_⟩
  · rw [hroots]
    exact h2
  · rw [hroots]
    apply nodup_middle.mpr
    refine nodup_cons.mpr ⟨?_,hmiddle.2⟩
    simp only [mem_append,mem_cons,not_or] at hnew ⊢
    exact ⟨hnew.1,hnew.2.2⟩
  · rw [hroots,← hset]
    refine Exclusive.of_leaves ?_ (fun hs hv => hleaves2 (Finset.mem_of_mem_erase hs) hv)
    intro q v e hq
    exact hx (Finset.mem_of_mem_erase hq)
  intro j hj
  dsimp only [Kernel.moved] at hj ⊢
  rcases eq_or_ne j i with rfl | hji
  · rw [update_self]
    exact hr
  · rw [update_of_ne hji] at hj ⊢
    exact h.breaks j hj

theorem Paired.visible_moved (b : Bookkeeping s) (h : Paired s n) {space : VmmSpace}
    {i : Fin maxProcesses} (b' : Bookkeeping (s.moved m' current space i r))
    (h' : Paired (s.moved m' current space i r) n')
    (hrestored : Restored (ownedRoots s.tasks).toFinset s.machine m') :
    visible (s.moved m' current space i r)=update (visible s) current
      (visible (s.moved m' current space i r) current) := by
  funext id
  rcases eq_or_ne id current with rfl | hne
  · rw [update_self]
  rw [update_of_ne hne]
  refine visible_same b b' h.inStep h'.inStep (fun t hid _ _ => ?_)
    (fun t ht _ ho v hv => hrestored.pages (Paired.root_mem ht ho) hv)
  rw [Kernel.moved,mem_map]
  constructor
  · rintro ⟨u,hu,rfl⟩
    split_ifs at hid ⊢ with hu'
    · exact absurd (hid.symm.trans hu') hne
    · exact hu
  · intro ht
    exact ⟨t,ht,if_neg (fun hx => hne (hid.symm.trans hx))⟩

theorem Paired.processExec (b : Bookkeeping s) (h : Paired s n) (current : Nat)
    (work : KernelWork) (file : Option (List UInt8)) (arguments : List (List UInt8))
    (hclean : s.machine=n) :
    Together (processExec current work file arguments) s n
      (fun _ t => Restored (ownedRoots s.tasks).toFinset s.machine t.machine) := by
  have hfind : (s.setMachine n).findProcess current=s.findProcess current := rfl
  have hmachine : (s.setMachine n).machine=n := rfl
  have hprocesses : (s.setMachine n).processes=s.processes := rfl
  unfold Together Process.processExec
  rw [hfind]
  cases s.findProcess current with
  | none => exact ⟨_,s,n,rfl,rfl,h,Restored.refl _ _⟩
  | some i =>
    dsimp only
    rw [hprocesses]
    split
    · exact ⟨_,s,n,rfl,rfl,h,Restored.refl _ _⟩
    obtain ⟨result,m1,n1,hm1,hn1,hresult⟩ :=
      createProcessImage_inStep h.inStep work file arguments hclean
    simp only [hmachine,hm1,hn1]
    cases result with
    | error x =>
      obtain ⟨h1,hleaves1,hrestored1⟩ := hresult
      exact ⟨_,_,n1,rfl,rfl,h.withMachine h1 (h.exclusive.of_leaves hleaves1),
        hrestored1⟩
    | ok image =>
      obtain ⟨c,m0,bytes,hnew,-,hspace,h1,hleaves1,hrestored1,hnone,hbuilt⟩ := hresult
      have hx1 := exclusive_insert h.exclusive hleaves1 hnone hbuilt
      have hset (k l : Machine) : (s.setMachine k).setMachine l=s.setMachine l := rfl
      have htask (k : Machine) : (s.setMachine k).findTask current=s.findTask current := rfl
      have hmachine2 (k : Machine) : (s.setMachine k).machine=k := rfl
      simp only [taskReplaceAddressSpace,hspace,htask,hset]
      cases hcur : s.findTask current with
      | none =>
        obtain ⟨h2,hrestored2⟩ := undo_space hnew h1 hrestored1
        exact ⟨_,_,_,rfl,rfl,h.withMachine h2 (hrestored2.exclusive h.inStep h.exclusive),
          hrestored2⟩
      | some t =>
        dsimp only
        by_cases hmove : false=true ∨ t.ownsSpace=false ∨ t.space=⟨c*4096,false⟩
        · simp only [if_pos hmove]
          obtain ⟨h2,hrestored2⟩ := undo_space hnew h1 hrestored1
          exact ⟨_,_,_,rfl,rfl,h.withMachine h2 (hrestored2.exclusive h.inStep h.exclusive),
            hrestored2⟩
        simp only [if_neg hmove]
        rw [not_or,not_or,Bool.not_eq_false] at hmove
        have hmem := (findTask_some hcur).1
        obtain ⟨-,-,hrestored2⟩ := h1.vmmSpaceDestroy
          (Finset.mem_insert_of_mem (Paired.root_mem hmem hmove.2.1)) (b.isKernel t hmem hmove.2.1)
        exact ⟨_,_,vmmSpaceDestroy t.space n1,rfl,rfl,
          Paired.moved b h hcur hmove.2.1 hnew h1 hx1 i (imageEnd_break hbuilt),
          hrestored1.trans (hrestored2.mono (Finset.subset_insert _ _))⟩

theorem Paired.taskCreateInSpace (b : Bookkeeping s) (h : Paired s n) (work : KernelWork) :
    Together (taskCreateInSpace work ⟨s.machine.kernelRoot,true⟩) s n
      (fun _ t => visible t=visible s) := by
  have b' := b.createTask work ⟨s.machine.kernelRoot,true⟩
  obtain ⟨m1,n1,hm1,hn1,h1,hleaves1,hrestored1⟩ := h.inStep.kmalloc work
  have hmachine : (s.setMachine n).machine=n := rfl
  unfold Together
  unfold Process.taskCreateInSpace at b' ⊢
  simp only [hmachine,hm1,hn1] at b' ⊢
  have h' := h.withMachine h1 (h.exclusive.of_leaves hleaves1)
  cases hok : work.ok with
  | false => exact ⟨_,_,n1,rfl,rfl,h',h.visible_samePages b h1 hrestored1.pages⟩
  | true =>
    rw [hok] at b'
    have hroots : ownedRoots (s.tasks ++ [⟨s.nextTaskId,false,⟨s.machine.kernelRoot,true⟩,
        !true⟩]) = ownedRoots s.tasks := by
      rw [ownedRoots_append]
      exact append_nil _
    have h2 := h'.withTasks hroots (s.nextTaskId+1)
    refine ⟨_,_,n1,rfl,rfl,h2,funext fun id => ?_⟩
    refine visible_same b b' h.inStep h2.inStep (fun t _ _ ho => ?_)
      (fun t ht _ ho v hv => hrestored1.pages (Paired.root_mem ht ho) hv)
    rw [mem_append,mem_singleton,or_iff_left]
    rintro rfl
    cases ho

theorem Paired.cancelled (h : Paired s n) (hnew : c ∉ (ownedRoots s.tasks).toFinset)
    (h' : InStep (insert c (ownedRoots s.tasks).toFinset) m' n')
    (hx : Exclusive (insert c (ownedRoots s.tasks).toFinset) m') :
    Paired (s.cancelled m' ⟨c*4096,false⟩) n' := by
  have hlaunch := h.launch hnew h' hx ⟨0,by decide⟩ (r := blankRecord) (Nat.zero_le _)
  have hmap : ownedRoots (s.cancelled m' ⟨c*4096,false⟩).tasks =
      ownedRoots (s.launch m' ⟨c*4096,false⟩ ⟨0,by decide⟩ blankRecord).tasks := by
    apply ownedRoots_map
    intro t
    split_ifs <;> exact ⟨rfl,rfl⟩
  refine ⟨?_,?_,?_,h.breaks⟩
  · rw [hmap]
    exact hlaunch.inStep
  · rw [hmap]
    exact hlaunch.nodup
  · rw [hmap]
    exact hlaunch.exclusive

/-- A child sees what its parent does. -/
theorem Paired.visible_forked (b : Bookkeeping s) (h : Paired s n)
    (ht : s.liveTask current=some t) {i : Fin maxProcesses}
    (b' : Bookkeeping (s.launch m' ⟨c*4096,false⟩ i r))
    (h' : Paired (s.launch m' ⟨c*4096,false⟩ i r) n')
    (hrestored : Restored (ownedRoots s.tasks).toFinset s.machine m')
    (hchild : ∀ v, v<userPages →
      pageAt m' c v=pageAt s.machine (t.space.pml4Physical/4096) v) :
    visible (s.launch m' ⟨c*4096,false⟩ i r) =
      Event.apply (visible s) (.forked current s.nextTaskId) := by
  rw [h.visible_launch b b' h' hrestored,Event.apply]
  congr 1
  funext a
  rw [visible_eq b' h'.inStep,visible_eq b h.inStep,ht,(liveTask_iff b'.ids).mpr
    ⟨mem_append_right _ (mem_singleton_self _),rfl,rfl,rfl⟩]
  simp only [Option.bind_some,userByte,Nat.mul_div_cancel c (by omega : 0<4096)]
  split_ifs with ha
  · exact congrArg _ (hchild _ (vpn_lt ha))
  · rfl

/-- A child that never ran leaves no trace. -/
theorem Paired.visible_cancelled (b : Bookkeeping s) (h : Paired s n) {space : VmmSpace}
    (hk : space.isKernel=false) (h' : Paired (s.cancelled m' space) n')
    (hrestored : Restored (ownedRoots s.tasks).toFinset s.machine m') :
    visible (s.cancelled m' space)=visible s := by
  funext id
  refine visible_same b (b.cancelled m' hk) h.inStep h'.inStep (fun t _ hz _ => ?_)
    (fun t ht _ ho v hv => hrestored.pages (Paired.root_mem ht ho) hv)
  rw [Kernel.cancelled,mem_map]
  constructor
  · rintro ⟨u,hu,rfl⟩
    split_ifs at hz ⊢ with hid
    exact (mem_append.mp hu).resolve_right (fun hx => hid (by rw [mem_singleton.mp hx]))
  · intro ht
    exact ⟨t,mem_append_left _ ht,if_neg (Nat.ne_of_lt (b.fresh t ht))⟩

theorem Paired.processFork (b : Bookkeeping s) (h : Paired s n) (current : Nat)
    (work : LaunchWork) (vfsForked : Bool) (release : Nat → List Nat) :
    Together (processFork current work vfsForked release) s n (fun result t => visible t =
      (if result<0 then [] else [Event.forked current result.toNat]).foldl Event.apply
        (visible s)) := by
  have hcurrent : (s.setMachine n).currentProcess current=s.currentProcess current := rfl
  have hfree : (s.setMachine n).freeProcessRecord=s.freeProcessRecord := rfl
  have hmachine (k : Machine) : (s.setMachine k).machine=k := rfl
  have hset (k l : Machine) : (s.setMachine k).setMachine l=s.setMachine l := rfl
  unfold Together Process.processFork
  rw [hcurrent,hfree]
  cases hcur : s.currentProcess current with
  | none => exact ⟨_,s,n,rfl,rfl,h,rfl⟩
  | some x =>
    obtain ⟨j,parent,space⟩ := x
    obtain ⟨hparent,hrun,-,-⟩ := currentProcess_some hcur
    obtain ⟨task,htask,rfl⟩ := b.live hcur
    have hr := Paired.current_mem b hcur
    cases s.freeProcessRecord with
    | none => exact ⟨_,s,n,rfl,rfl,h,rfl⟩
    | some child =>
      obtain ⟨m1,n1,hm1,hn1,h1,hleaves1,hrestored1⟩ := h.inStep.kmalloc work.launch
      have hx1 := h.exclusive.of_leaves hleaves1
      simp only [hmachine,hm1,hn1]
      cases work.launch.ok with
      | false =>
        exact ⟨_,_,n1,rfl,rfl,h.withMachine h1 hx1,
          h.visible_samePages b h1 hrestored1.pages⟩
      | true =>
        dsimp only
        obtain ⟨m2,n2,⟨h2,hleaves2,hrestored2,hm2,hn2⟩ |
          ⟨c,hnew,h2,hrestored2,hexcl,hchild,hm2,hn2⟩⟩ := h1.vmmSpaceCloneCow work.space hr
        · simp only [hm2,hn2]
          exact ⟨_,_,n2,rfl,rfl,h.withMachine h2 (hx1.of_leaves hleaves2),
            h.visible_samePages b h2 (hrestored1.trans hrestored2).pages⟩
        have hx2 := hexcl hx1
        have hrestored2 : Restored (ownedRoots s.tasks).toFinset s.machine m2 :=
          hrestored1.trans hrestored2
        obtain ⟨m3,n3,hm3,hn3,h3,hleaves3,hkept⟩ := h2.kmalloc work.task
        have hrestored3 : Restored (ownedRoots s.tasks).toFinset s.machine m3 :=
          hrestored2.trans (hkept.mono (Finset.subset_insert _ _))
        have hx3 := hx2.of_leaves hleaves3
        simp only [hm2,hn2,Process.taskCreateInSpace,hmachine,hset,hm3,hn3]
        cases work.task.ok with
        | false =>
          obtain ⟨h4,hrestored4⟩ := undo_space hnew h3 hrestored3
          exact ⟨_,_,_,rfl,rfl,h.withMachine h4 (hrestored4.exclusive h.inStep h.exclusive),
            h.visible_samePages b h4 hrestored4.pages⟩
        | true =>
          cases vfsForked with
          | false =>
            have hc := h.cancelled hnew h3 hx3
            have hspace : (⟨c*4096,false⟩ : VmmSpace).isKernel=false := rfl
            have bc := b.cancelled m3 hspace
            obtain ⟨n4,hn4,h4,-⟩ := hc.removeZombies bc.isKernel current release
            exact ⟨syscallEnomem,_,n4,rfl,congrArg (Prod.mk syscallEnomem) hn4,h4,
              (hc.visible_removeZombies bc current release).trans
                (h.visible_cancelled b hspace hc hrestored3)⟩
          | true =>
            have hbreak := h.breaks j (by rw [← hparent]; exact hrun)
            rw [← hparent] at hbreak
            refine ⟨_,_,n3,rfl,rfl,h.launch hnew h3 hx3 child hbreak,?_⟩
            rw [if_neg (not_lt.mpr (Int.natCast_nonneg _))]
            refine h.visible_forked b htask (b.launch m3 rfl rfl rfl)
              (h.launch hnew h3 hx3 child hbreak) hrestored3 (fun v hv => ?_)
            exact (hkept.pages (Finset.mem_insert_self _ _) hv).trans
              ((hchild hv).trans (hrestored1.pages hr hv))

end Launch

section Runs

variable {s : Kernel} {n : Machine}

/-- An operation that loads a program. -/
def Op.loads : Op → Bool
  | .spawn _ _ _ _ _ => true
  | .exec _ _ _ _ => true
  | _ => false

/-- One operation, in step. What the tasks see is what its events say. -/
theorem Paired.step (b : Bookkeeping s) (h : Paired s n) (op : Op)
    (hop : s.machine=n ∨ op.loads=false) :
    ∃ n', ((s.setMachine n).step op).1=(s.step op).1.setMachine n' ∧
      Paired (s.step op).1 n' ∧ (s.growsApart op=true →
        visible (s.step op).1=(s.step op).2.foldl Event.apply (visible s)) := by
  have hruns (current : Nat) : (s.setMachine n).runs current=s.runs current := rfl
  have huses (current : Nat) : (s.setMachine n).runsUser current=s.runsUser current := rfl
  cases op with
  | kernel steps =>
    obtain ⟨h',hleaves,hrestored⟩ := h.inStep.runKernel steps
    exact ⟨_,rfl,h.withMachine h' (h.exclusive.of_leaves hleaves),
      fun _ => h.visible_samePages b h' hrestored.pages⟩
  | kernelTask work =>
    obtain ⟨pid,t,n',hs,hn,h',hview⟩ := h.taskCreateInSpace b work
    obtain ⟨label,tw,-⟩ := h.inStep
    have hroot : (s.setMachine n).machine.kernelRoot=s.machine.kernelRoot := tw.kernelRoot
    rw [Kernel.step,Kernel.step,hroot,hs,hn]
    exact ⟨n',rfl,h',fun _ => hview⟩
  | spawn current work path argument file =>
    rw [Kernel.step,Kernel.step,hruns]
    split
    · exact ⟨n,rfl,h,fun _ => rfl⟩
    obtain ⟨result,t,n',hs,hn,h',hrestored⟩ :=
      h.processSpawn current work path argument file (hop.resolve_right (by simp [Op.loads]))
    rw [hs,hn]
    refine ⟨n',rfl,h',fun _ => ?_⟩
    rcases processSpawn_cases current work path argument file s with ⟨e,m,he,heq⟩ |
      ⟨i,r,m,space,-,hk,hpid,-,-,hspace,heq⟩
    · rw [hs] at heq
      cases heq
      simp only [if_pos he]
      exact h.visible_samePages b h'.inStep hrestored.pages
    · rw [hs] at heq
      cases heq
      simp only [if_neg (by omega : ¬ (s.nextTaskId : Int)<0)]
      exact h.visible_launch b (b.launch m hk hpid hspace) h' hrestored
  | exec current work file arguments =>
    rw [Kernel.step,Kernel.step,hruns]
    split
    · exact ⟨n,rfl,h,fun _ => rfl⟩
    obtain ⟨result,t,n',hs,hn,h',hrestored⟩ := h.processExec b current work file arguments
      (hop.resolve_right (by simp [Op.loads]))
    rw [hs,hn]
    refine ⟨n',rfl,h',fun _ => ?_⟩
    rcases processExec_cases current work file arguments s with ⟨e,m,he,heq⟩ |
      ⟨i,r,m,space,hrun,rfl,hk,hpid,-,-,hspace,heq⟩
    · rw [hs] at heq
      cases heq
      simp only [if_pos he]
      exact h.visible_samePages b h'.inStep hrestored.pages
    · rw [hs] at heq
      cases heq
      exact h.visible_moved b (b.moved m hk hrun hpid hspace) h' hrestored
  | fork current work vfsForked release =>
    rw [Kernel.step,Kernel.step,hruns]
    split
    · exact ⟨n,rfl,h,fun _ => rfl⟩
    obtain ⟨result,t,n',hs,hn,h',hview⟩ := h.processFork b current work vfsForked release
    rw [hs,hn]
    exact ⟨n',rfl,h',fun _ => hview⟩
  | exit current status release =>
    rw [Kernel.step,Kernel.step,hruns]
    split
    · exact ⟨n,rfl,h,fun _ => rfl⟩
    obtain ⟨n',hn,h',hview⟩ := h.processExit b current status release
    exact ⟨n',hn,h',fun _ => hview⟩
  | yield current release =>
    rw [Kernel.step,Kernel.step,hruns]
    split
    · exact ⟨n,rfl,h,fun _ => rfl⟩
    obtain ⟨n',hn,h',-⟩ := h.removeZombies b.isKernel current release
    exact ⟨n',hn,h',fun _ => h.visible_removeZombies b current release⟩
  | waitpid current pid release =>
    rw [Kernel.step,Kernel.step,hruns]
    split
    · exact ⟨n,rfl,h,fun _ => rfl⟩
    obtain ⟨result,t,n',hs,hn,h',hview⟩ := h.processWaitpid b current pid release
    rw [hs,hn]
    exact ⟨n',rfl,h',fun _ => hview⟩
  | access current kind address byte release =>
    rw [Kernel.step,Kernel.step,huses]
    split
    · exact ⟨n,rfl,h,fun _ => rfl⟩
    rename_i huser
    obtain ⟨t,n',events,hs,hn,h',hview⟩ := h.userAccess b current kind address byte release
      (by simpa using huser)
    rw [hs,hn]
    exact ⟨n',rfl,h',fun _ => hview⟩
  | copyToUser current address bytes =>
    rw [Kernel.step,Kernel.step,huses]
    split
    · exact ⟨n,rfl,h,fun _ => rfl⟩
    rename_i huser
    obtain ⟨k,done,t,n',hs,hn,h',hview⟩ := h.copyToUser b current address bytes
      (by simpa using huser)
    rw [hs,hn]
    exact ⟨n',rfl,h',fun _ => hview⟩
  | brk current requested =>
    rw [Kernel.step,Kernel.step,hruns]
    split
    · exact ⟨n,rfl,h,fun _ => rfl⟩
    obtain ⟨result,t,n',hs,hn,h',hview⟩ := h.processBrk b current requested
    rw [hs,hn]
    exact ⟨n',rfl,h',hview⟩
  | mmap current hint length protection flags =>
    rw [Kernel.step,Kernel.step,hruns]
    split
    · exact ⟨n,rfl,h,fun _ => rfl⟩
    obtain ⟨result,t,n',hs,hn,h',hview⟩ :=
      h.processMmap b current hint length protection flags
    rw [hs,hn]
    exact ⟨n',rfl,h',fun _ => hview⟩
  | munmap current address length =>
    rw [Kernel.step,Kernel.step,hruns]
    split
    · exact ⟨n,rfl,h,fun _ => rfl⟩
    obtain ⟨result,t,n',hs,hn,h',hview⟩ := h.processMunmap b current address length
    rw [hs,hn]
    exact ⟨n',rfl,h',fun _ => hview⟩

/-- A whole run, in step. -/
theorem Paired.run (b : Bookkeeping s) (h : Paired s n) (ops : List Op)
    (hops : s.machine=n ∨ ∀ op ∈ ops, op.loads=false) :
    ∃ n', (Kernel.run ops (s.setMachine n)).1=(Kernel.run ops s).1.setMachine n' ∧
      Paired (Kernel.run ops s).1 n' := by
  induction ops generalizing s n with
  | nil => exact ⟨n,rfl,h⟩
  | cons op ops ih =>
    obtain ⟨n1,hn1,h1,-⟩ := h.step b op (hops.imp_right (fun hall => hall op mem_cons_self))
    have hnext : (s.step op).1.machine=n1 ∨ ∀ op ∈ ops, op.loads=false := by
      rcases hops with hsame | hall
      · left
        rw [← hsame] at hn1
        exact congrArg Kernel.machine hn1
      · exact Or.inr (fun op hop => hall op (mem_cons_of_mem _ hop))
    obtain ⟨n2,hn2,h2⟩ := ih (b.step op) h1 hnext
    refine ⟨n2,?_,h2⟩
    rw [Kernel.run,Kernel.run]
    dsimp only
    rw [hn1,hn2]

end Runs

section Boot

variable {m n : Machine}

/-- A machine after boot: the allocator has handed out the kernel's pages and no others, and
the kernel's tables, which it does not own, map nothing in the lower half. -/
structure Booted (m : Machine) : Prop where
  pmm : PmmInv m.pmm
  counted : ∀ {p}, managed m.pmm p=true → m.pmm.pageReferences p=kernelHeld m p ∧
    (m.pmm.bitmap p=true ↔ m.kernelPages p=true)
  foreign : ∀ {p}, managed m.pmm p=false → m.pmm.bitmap p=true ∧ m.kernelPages p=false
  kernelRoot : managed m.pmm (m.kernelRoot/4096)=false
  kernelLower : ∀ {i}, i<256 → present (m.entry (m.kernelRoot/4096) i)=false

/-- Two machines that differ only in what free pages hold. -/
structure SameButFree (m n : Machine) : Prop where
  pmm : n.pmm=m.pmm
  kernelRoot : n.kernelRoot=m.kernelRoot
  kernelPages : n.kernelPages=m.kernelPages
  mem : ∀ {q}, m.pmm.bitmap q=true → n.mem q=m.mem q
  /-- A page has 512 words. -/
  tail : ∀ {q i}, 512 ≤ i → n.mem q i=m.mem q i

theorem mappings_empty (m : Machine) (p : Nat) : mappings m ∅ p=0 := by
  apply occurrences_eq_zero.mpr
  intro x hx
  rw [Finset.empty_product] at hx
  exact absurd hx (Finset.notMem_empty x)

theorem Booted.memInv (h : Booted m) : MemInv m ∅ (fun _ => none) (kernelHeld m) := by
  have htotal (p : Nat) : total m ∅ (fun _ => none) (kernelHeld m) p=kernelHeld m p := by
    rw [total,mappings_empty,tag,if_pos rfl]
    omega
  have hheld (p : Nat) : 0<kernelHeld m p ↔ m.kernelPages p=true := by
    rw [kernelHeld]
    split_ifs with hk <;> simp [hk]
  refine ⟨?_,h.pmm,?_,?_,?_,h.kernelRoot,h.kernelLower,?_⟩
  · refine ⟨?_,?_,?_,?_,?_,?_⟩
    · intro q r
      simp
    · intro q r path hl
      cases hl
    · intro q r path hl
      cases hl
    · intro q r i path hl
      cases hl
    · intro q r path i hl
      cases hl
    · intro q r path i hl
      cases hl
  · intro p hp
    rw [htotal,hheld]
    exact h.counted hp
  · intro p hp
    exact absurd rfl hp
  · intro p hp
    obtain ⟨hb,hk⟩ := h.foreign hp
    refine ⟨hb,?_⟩
    rw [kernelHeld,hk]
    rfl
  · intro p hp
    exact ⟨(hheld p).mpr hp,mappings_empty m p⟩

theorem Booted.paired (h : Booted m) (hsame : SameButFree m n) : Paired (Kernel.boot m) n := by
  have hroots : ownedRoots (Kernel.boot m).tasks=[] := rfl
  have hbit := (h.foreign h.kernelRoot).1
  refine ⟨?_,?_,?_,?_⟩
  · rw [hroots]
    exact ⟨fun _ => none,⟨h.memInv,hsame.pmm,hsame.kernelRoot,hsame.kernelPages,
      fun hb _ _ => hsame.mem hb,fun hx => absurd rfl hx,hsame.mem hbit,hsame.tail⟩,
      fun r _ _ hr => absurd hr (Finset.notMem_empty r)⟩
  · rw [hroots]
    exact nodup_nil
  · rw [hroots]
    intro r v e hr
    exact absurd hr (Finset.notMem_empty r)
  · intro i hi
    cases hi

theorem SameButFree.refl (m : Machine) : SameButFree m m :=
  ⟨rfl,rfl,rfl,fun _ => rfl,fun _ => rfl⟩

/-- What holds in every state of a run: tasks and records belong together, and so do the
spaces, their tables and the allocator. -/
structure WellKept (s : Kernel) : Prop where
  book : Bookkeeping s
  paired : Paired s s.machine

theorem Booted.run (h : Booted m) (ops : List Op) :
    WellKept (Kernel.run ops (Kernel.boot m)).1 := by
  have b := Bookkeeping.boot m
  obtain ⟨n',hn,h'⟩ := (h.paired (SameButFree.refl m)).run b ops (Or.inl rfl)
  have hmachine : (Kernel.run ops (Kernel.boot m)).1.machine=n' := congrArg Kernel.machine hn
  refine ⟨b.run ops,?_⟩
  rw [hmachine]
  exact h'

theorem sampleMachine_managed (fill : BitVec 64) (p : Nat) :
    managed (sampleMachine fill).pmm p=decide (2≤p ∧ p<1100) := by
  rw [Bool.eq_iff_iff,decide_eq_true_eq]
  have hmap : (sampleMachine fill).pmm.memoryMap=[⟨0,1100*4096,.usable⟩] := rfl
  have hlow : (sampleMachine fill).pmm.bitmapPhysical=0 := rfl
  have hhigh : (sampleMachine fill).pmm.referencesPhysical +
      (sampleMachine fill).pmm.referencesPageCount*4096=4096+1*4096 := rfl
  rw [managed,pageIsUsable,isMetadata,hmap,hlow,hhigh]
  simp only [any_cons,any_nil,Bool.or_false,Bool.and_eq_true,Bool.not_eq_true',
    Bool.and_eq_false_iff,decide_eq_true_eq,decide_eq_false_iff_not,zero_le,true_and,
    not_true,false_or]
  omega

theorem sampleMachine_booted (fill : BitVec 64) : Booted (sampleMachine fill) := by
  have hbit (p : Nat) : (sampleMachine fill).pmm.bitmap p=decide (p<2 ∨ 1100≤p) := rfl
  have hk (p : Nat) : (sampleMachine fill).kernelPages p=false := rfl
  have hcount : (sampleMachine fill).pmm.pageCount=1100 := rfl
  have hroot : (sampleMachine fill).kernelRoot/4096=2000 :=
    Nat.mul_div_cancel 2000 (by decide)
  refine ⟨⟨?_,?_,by rw [hcount]; exact (by decide : 2≤1100),by rw [hcount]; decide⟩,?_,?_,?_,?_⟩
  · intro p hp
    rw [hbit,decide_eq_false_iff_not] at hp
    rw [sampleMachine_managed,decide_eq_true_eq,hcount]
    omega
  · intro p hp
    rw [sampleMachine_managed,decide_eq_true_eq] at hp
    exact hp.2
  · intro p hp
    rw [sampleMachine_managed,decide_eq_true_eq] at hp
    rw [kernelHeld,hk,hbit,decide_eq_true_eq]
    refine ⟨rfl,?_⟩
    simp only [Bool.false_eq_true,iff_false]
    omega
  · intro p hp
    rw [sampleMachine_managed,decide_eq_false_iff_not] at hp
    rw [hk,hbit,decide_eq_true_eq]
    exact ⟨by omega,rfl⟩
  · rw [hroot,sampleMachine_managed]
    decide
  · intro i _
    rw [hroot]
    exact present_zero

/-- A kernel whose task 1 runs the sample program. -/
def sampleUser : Kernel :=
  (Kernel.run [.spawn 0 idleLaunch [0x69] [] (some sampleElf)] (Kernel.boot (sampleMachine 0))).1

def sampleTask : Task := ⟨1,false,⟨2*4096,false⟩,true⟩

def sampleRecord : Fin maxProcesses := ⟨0,by decide⟩

theorem sampleUser_wellKept : WellKept sampleUser := (sampleMachine_booted 0).run _

theorem sampleUser_task : sampleUser.findTask 1=some sampleTask := by
  decide +kernel

end Boot

end ConeOS.Process
