import ConeOS.Memory.KernelPrune

namespace ConeOS.Memory

open ConeOS.Library Machine Function List

def stackRegionBase : Nat := 0xFFFFE00000000000

structure KernelStack where
  guardBase : Nat
  bottom : Nat
  top : Nat
  pageCount : Nat
  deriving DecidableEq, Repr

/-- The machine with the `next_stack_base` of stack.c. -/
structure StackArea where
  machine : Machine
  nextStackBase : Nat

/-- One round of the loop of `kernel_stack_alloc`: a page that cannot be mapped is given back. -/
def mapStackPage (address : Nat) (m : Machine) : Bool × Machine :=
  match m.allocPage with
  | (none,m) => (false,m)
  | (some page,m) =>
    match vmmMapPage address (page*4096) stackFlags m with
    | (false,m) => (false,m.freePage page)
    | (true,m) => (true,m)

def unmapStackPage (address : Nat) (m : Machine) : Machine :=
  match vmmUnmapPage address m with
  | (none,m) => m
  | (some physical,m) => m.freePage (physical/4096)

/-- The rollback: the pages below `count`, the last one first. -/
def rollbackStackPages (bottom : Nat) : Nat → Machine → Machine
  | 0, m => m
  | count+1, m =>
    rollbackStackPages bottom count (unmapStackPage ((bottom+count*4096)%2 ^ 64) m)

/-- The loop of `kernel_stack_alloc` with `left` pages to go; `page` of them are mapped. -/
def mapStackPages (bottom : Nat) : Nat → Nat → Machine → Bool × Machine
  | 0, _, m => (true,m)
  | left+1, page, m =>
    match mapStackPage ((bottom+page*4096)%2 ^ 64) m with
    | (false,m) => (false,rollbackStackPages bottom page m)
    | (true,m) => mapStackPages bottom left (page+1) m

def kernelStackAlloc (pageCount : Nat) (s : StackArea) : Option KernelStack × StackArea :=
  if pageCount=0 then (none,s)
  else
    let guardBase := s.nextStackBase
    let bottom := (guardBase+4096)%2 ^ 64
    match mapStackPages bottom pageCount 0 s.machine with
    | (false,m) => (none, { s with machine := m })
    | (true,m) =>
      let top := (bottom+pageCount*4096)%2 ^ 64
      (some ⟨guardBase,bottom,top,pageCount⟩,⟨m,top⟩)

/-- The loop of `kernel_stack_free`. -/
def freeStackPages (bottom : Nat) : Nat → Nat → Machine → Machine
  | 0, _, m => m
  | left+1, page, m =>
    freeStackPages bottom left (page+1) (unmapStackPage ((bottom+page*4096)%2 ^ 64) m)

def kernelStackFree (stack : KernelStack) (s : StackArea) : KernelStack × StackArea :=
  if stack.pageCount=0 then (stack,s)
  else
    (⟨0,0,0,0⟩,
      { s with machine := freeStackPages stack.bottom stack.pageCount 0 s.machine })

/-- The area with the stacks that were given out and not freed, the latest first. -/
structure Stacks where
  area : StackArea
  live : List KernelStack

inductive StackCall
  | alloc (pageCount : Nat)
  | free (index : Nat)

def StackCall.run (w : Stacks) : StackCall → Stacks
  | .alloc pageCount =>
    match kernelStackAlloc pageCount w.area with
    | (none,area) => { w with area := area }
    | (some stack,area) => ⟨area,stack :: w.live⟩
  | .free index =>
    match w.live[index]? with
    | none => w
    | some stack => ⟨(kernelStackFree stack w.area).2,w.live.eraseIdx index⟩

def runStackCalls (calls : List StackCall) (w : Stacks) : Stacks := calls.foldl StackCall.run w

/-- The virtual pages in `frames` are mapped to their frames, which belong to nobody else; all
else is as in `m₀`. -/
structure Backed (m₀ : Machine) (place₀ : Nat → Option Place) (frames : Nat → Option Nat)
    (m : Machine) (place : Nat → Option Place) : Prop where
  grown : Grown m₀ place₀ { p | ∃ v, frames v=some p } (m₀.kernelRoot/4096) m place
  injective : ∀ {v v' p}, frames v=some p → frames v'=some p → v=v'
  view : ∀ a, 0xFFFF800000000000≤a → kernelQuery a m =
    (frames (a/4096)).elim (kernelQuery a m₀)
      (fun p => some (p*4096+a%4096,vmmPresent ||| stackFlags))
  base : ∀ {v p}, frames v=some p →
    0xFFFF800000000000≤v*4096 ∧ ∀ a, a/4096=v → kernelQuery a m₀=none

section Steps

variable {m₀ m : Machine} {place₀ place : Nat → Option Place} {frames : Nat → Option Nat}
  {address : Nat} {a p v : Nat}

theorem Backed.refl (h : SoundTables (m₀.kernelRoot/4096) m₀ place₀) :
    Backed m₀ place₀ (fun _ => none) m₀ place₀ := by
  have hdata : { p | ∃ v : Nat, (fun _ => none : Nat → Option Nat) v=some p } = ∅ := by
    ext p
    simp
  refine ⟨?_,fun h => (nomatch h),fun _ _ => rfl,fun h => (nomatch h)⟩
  rw [hdata]
  exact Grown.refl h

theorem Backed.view_some (h : Backed m₀ place₀ frames m place)
    (haddr : 0xFFFF800000000000≤a) (hp : frames (a/4096)=some p) :
    kernelQuery a m=some (p*4096+a%4096,vmmPresent ||| stackFlags) := by
  rw [h.view a haddr,hp]
  rfl

theorem Backed.view_none (h : Backed m₀ place₀ frames m place)
    (haddr : 0xFFFF800000000000≤a) (hp : frames (a/4096)=none) :
    kernelQuery a m=kernelQuery a m₀ := by
  rw [h.view a haddr,hp]
  rfl

theorem frames_update (frames : Nat → Option Nat) (hv : frames v=none) (p : Nat) :
    { q | ∃ v', update frames v (some p) v'=some q } =
      insert p { q | ∃ v', frames v'=some q } := by
  ext q
  simp only [Set.mem_ofPred_eq,Set.mem_insert_iff]
  constructor
  · rintro ⟨v',hq⟩
    by_cases hv' : v'=v
    · subst hv'
      rw [update_self] at hq
      exact Or.inl (Option.some.inj hq).symm
    · rw [update_of_ne hv'] at hq
      exact Or.inr ⟨v',hq⟩
  rintro (rfl | ⟨v',hq⟩)
  · exact ⟨v,update_self ..⟩
  refine ⟨v',?_⟩
  rw [update_of_ne]
  · exact hq
  · rintro rfl
    rw [hv] at hq
    cases hq

/-- One round maps a page with a frame of its own, or changes nothing. -/
theorem Backed.map (h : Backed m₀ place₀ frames m place) (haddr : 0xFFFF800000000000≤address)
    (halign : address%4096=0) :
    (∃ m', mapStackPage address m=(false,m') ∧ Backed m₀ place₀ frames m' place) ∨
      ∃ m' place' p, mapStackPage address m=(true,m') ∧ kernelQuery address m=none ∧
        Backed m₀ place₀ (update frames (address/4096) (some p)) m' place' := by
  rw [mapStackPage,allocPage]
  rcases alloc_cases 0 h.grown.sound.pmm with hnone | ⟨p,hp,hp40,hsome⟩
  · rw [hnone]
    exact Or.inl ⟨m,rfl,h⟩
  rw [hsome]
  dsimp only
  have hnot : p ∉ { q | ∃ v, frames v=some q } := by
    intro hmem
    rw [h.grown.data_inUse hmem] at hp
    cases hp
  have htaken := h.grown.take hp
  rcases vmmMapPage_grown htaken haddr hp40 with
    ⟨m',hmap,hundone⟩ | ⟨m',place',hmap,hquery,hgrown,hmaps⟩
  · rw [hmap]
    refine Or.inl ⟨_,rfl,?_,h.injective,?_,h.base⟩
    · have hgiven := (htaken.restore hundone).give (Set.mem_insert p _)
      rwa [Set.insert_sdiff_self_of_notMem hnot] at hgiven
    · intro a ha
      exact (hundone.kernelQuery htaken.sound.tables ha).trans (h.view a ha)
  rw [hmap]
  have hquery' : kernelQuery address m=none := hquery
  have hframe : frames (address/4096)=none := by
    by_contra hsome
    obtain ⟨p',hp'⟩ := Option.ne_none_iff_exists'.mp hsome
    rw [h.view_some haddr hp'] at hquery'
    cases hquery'
  have hsame (v : Nat) (hv : v≠address/4096) :
      update frames (address/4096) (some p) v=frames v :=
    update_of_ne hv _ _
  have hfresh (v : Nat) : frames v≠some p := fun hv => hnot ⟨v,hv⟩
  refine Or.inr ⟨m',place',p,rfl,hquery',?_,?_,?_,?_⟩
  · rw [frames_update frames hframe]
    exact hgrown
  · intro v v' q hv hv'
    by_cases h1 : v=address/4096 <;> by_cases h2 : v'=address/4096
    · rw [h1,h2]
    · rw [h1,update_self] at hv
      rw [hsame v' h2,← hv] at hv'
      exact absurd hv' (hfresh v')
    · rw [h2,update_self] at hv'
      rw [hsame v h1,← hv'] at hv
      exact absurd hv (hfresh v)
    · rw [hsame v h1] at hv
      rw [hsame v' h2] at hv'
      exact h.injective hv hv'
  · intro a ha
    by_cases hpage : a/4096=address/4096
    · rw [hmaps.page a hpage,hpage,update_self]
      rfl
    · rw [hmaps.other a ha hpage,hsame _ hpage]
      exact h.view a ha
  intro v q hv
  by_cases hpage : v=address/4096
  · subst hpage
    refine ⟨by omega,?_⟩
    intro a ha
    rw [← h.view_none (show 0xFFFF800000000000≤a by omega) (by rw [ha]; exact hframe)]
    exact kernelQuery_samePage ha.symm hquery'
  · rw [hsame v hpage] at hv
    exact h.base hv

theorem frames_remove {frames : Nat → Option Nat} (hv : frames v=some p)
    (hinj : ∀ {v v' p}, frames v=some p → frames v'=some p → v=v') :
    { q | ∃ v', update frames v none v'=some q } =
      { q | ∃ v', frames v'=some q } \ {p} := by
  ext q
  simp only [Set.mem_ofPred_eq,Set.mem_sdiff,Set.mem_singleton_iff]
  constructor
  · rintro ⟨v',hq⟩
    by_cases hv' : v'=v
    · subst hv'
      rw [update_self] at hq
      cases hq
    rw [update_of_ne hv'] at hq
    refine ⟨⟨v',hq⟩,?_⟩
    rintro rfl
    exact hv' (hinj hq hv)
  · rintro ⟨⟨v',hq⟩,hne⟩
    refine ⟨v',?_⟩
    rw [update_of_ne]
    · exact hq
    · rintro rfl
      rw [hv] at hq
      exact hne (Option.some.inj hq).symm

/-- Unmapping a page gives its frame back. -/
theorem Backed.unmap (h : Backed m₀ place₀ frames m place) (halign : address%4096=0)
    (hp : frames (address/4096)=some p) :
    ∃ place', Backed m₀ place₀ (update frames (address/4096) none)
        (unmapStackPage address m) place' ∧
      Shrunk m place (unmapStackPage address m) place' ∧
      ∀ c, place c≠none → place' c=none → Through m address c := by
  obtain ⟨hupper,hbase⟩ := h.base hp
  have haddr : 0xFFFF800000000000≤address := by omega
  have hquery := h.view_some haddr hp
  rw [halign,Nat.add_zero] at hquery
  obtain ⟨m',place',hunmap,hgrown,hshrunk,hgone,hunmaps⟩ :=
    vmmUnmapPage_grown h.grown haddr halign (hbase address rfl) hquery
  have hresult : unmapStackPage address m=m'.freePage p := by
    rw [unmapStackPage,hunmap]
    dsimp only
    rw [Nat.mul_div_cancel _ (by omega)]
  rw [hresult]
  have hsame (v : Nat) (hv : v≠address/4096) :
      update frames (address/4096) none v=frames v :=
    update_of_ne hv _ _
  have hplaced {v q : Nat} (hv : update frames (address/4096) none v=some q) :
      frames v=some q := by
    by_cases hpage : v=address/4096
    · rw [hpage,update_self] at hv
      cases hv
    · rwa [hsame v hpage] at hv
  refine ⟨place',⟨?_,?_,?_,?_⟩,⟨hshrunk.kernelRoot,hshrunk.placed,hshrunk.entries⟩,hgone⟩
  · rw [frames_remove hp h.injective]
    exact hgrown.give ⟨_,hp⟩
  · intro v v' q hv hv'
    exact h.injective (hplaced hv) (hplaced hv')
  · intro a ha
    show kernelQuery a m'=_
    by_cases hpage : a/4096=address/4096
    · rw [hunmaps.page a hpage,hpage,update_self]
      exact (hbase a hpage).symm
    · rw [hunmaps.other a ha hpage,hsame _ hpage]
      exact h.view a ha
  · intro v q hv
    exact h.base (hplaced hv)

end Steps

/-- The frames without those of `count` pages from `first` on. -/
def clearFrames (frames : Nat → Option Nat) (first count : Nat) (v : Nat) : Option Nat :=
  if first≤v ∧ v<first+count then none else frames v

/-- `count` pages from `first` on have got frames. -/
structure FramesAdded (frames : Nat → Option Nat) (first count : Nat) (frames' : Nat → Option Nat) :
    Prop where
  inside : ∀ v, first≤v → v<first+count → frames' v≠none
  outside : ∀ v, ¬ (first≤v ∧ v<first+count) → frames' v=frames v

section Loops

variable {m₀ m : Machine} {place₀ place : Nat → Option Place} {frames : Nat → Option Nat}
  {bottom : Nat}

theorem clearFrames_zero (frames : Nat → Option Nat) (first : Nat) :
    clearFrames frames first 0=frames := by
  funext v
  rw [clearFrames,if_neg (by omega)]

theorem clearFrames_last (frames : Nat → Option Nat) (first count : Nat) :
    clearFrames (update frames (first+count) none) first count =
      clearFrames frames first (count+1) := by
  funext v
  simp only [clearFrames]
  by_cases hv : v=first+count
  · subst hv
    simp
  rw [update_of_ne hv]
  by_cases hin : first≤v ∧ v<first+count
  · rw [if_pos hin,if_pos (by omega)]
  · rw [if_neg hin,if_neg (by omega)]

theorem clearFrames_first (frames : Nat → Option Nat) (first count : Nat) :
    clearFrames (update frames first none) (first+1) count =
      clearFrames frames first (count+1) := by
  funext v
  simp only [clearFrames]
  by_cases hv : v=first
  · subst hv
    simp
  rw [update_of_ne hv]
  by_cases hin : first+1≤v ∧ v<first+1+count
  · rw [if_pos hin,if_pos (by omega)]
  · rw [if_neg hin,if_neg (by omega)]

theorem stackPage_div (bottom k : Nat) : (bottom+k*4096)/4096=bottom/4096+k :=
  Nat.add_mul_div_right _ _ (by omega)

theorem nextPage_le {a limit : Nat} (h : a<limit) (ha : a%4096=0)
    (hlimit : limit%4096=0) : a+4096≤limit := by
  omega

/-- The pages of the rollback are all unmapped. -/
theorem rollbackStackPages_backed (count : Nat) (h : Backed m₀ place₀ frames m place)
    (halign : bottom%4096=0) (hbound : bottom+count*4096≤2 ^ 64)
    (hframes : ∀ k<count, frames (bottom/4096+k)≠none) :
    ∃ place', Backed m₀ place₀ (clearFrames frames (bottom/4096) count)
      (rollbackStackPages bottom count m) place' := by
  induction count generalizing m place frames with
  | zero =>
    rw [clearFrames_zero]
    exact ⟨place,h⟩
  | succ count ih =>
    rw [Nat.succ_mul] at hbound
    have hlt : bottom+count*4096<2 ^ 64 := by omega
    have hmod : (bottom+count*4096)%2 ^ 64=bottom+count*4096 := Nat.mod_eq_of_lt hlt
    have hdiv := stackPage_div bottom count
    obtain ⟨p,hp⟩ := Option.ne_none_iff_exists'.mp (hframes count (Nat.lt_succ_self count))
    have haligned : (bottom+count*4096)%4096=0 := by omega
    rw [← hdiv] at hp
    rw [rollbackStackPages,hmod]
    obtain ⟨place',hback,-⟩ := h.unmap haligned hp
    rw [hdiv] at hback
    rw [← clearFrames_last]
    refine ih hback hlt.le ?_
    intro k hk
    rw [update_of_ne (by omega)]
    exact hframes k (by omega)

theorem clearFrames_added {first page p : Nat} (hnone : frames (first+page)=none) :
    clearFrames (update frames (first+page) (some p)) first (page+1) =
      clearFrames frames first page := by
  funext v
  simp only [clearFrames]
  by_cases hv : v=first+page
  · subst hv
    rw [if_pos (by omega),if_neg (by omega),hnone]
  rw [update_of_ne hv]
  by_cases hin : first≤v ∧ v<first+page
  · rw [if_pos hin,if_pos (by omega)]
  · rw [if_neg hin,if_neg (by omega)]

/-- The loop of alloc, before a page that is taken in `m₀`: all pages are mapped, or none of
them is. -/
theorem mapStackPages_backed (left page : Nat) (h : Backed m₀ place₀ frames m place) {limit : Nat}
    (hlow : 0xFFFF800000000000≤bottom) (halign : bottom%4096=0) (hlimit : limit<2 ^ 64)
    (hlimitAlign : limit%4096=0) (htaken : kernelQuery limit m₀≠none)
    (hroom : bottom+page*4096<limit ∨
      (bottom+page*4096<2 ^ 64 ∧ kernelQuery (bottom+page*4096) m₀≠none))
    (hframes : ∀ k<page, frames (bottom/4096+k)≠none) :
    (∃ m' place', mapStackPages bottom left page m=(false,m') ∧
        Backed m₀ place₀ (clearFrames frames (bottom/4096) page) m' place') ∨
      ∃ m' place' frames', mapStackPages bottom left page m=(true,m') ∧
        Backed m₀ place₀ frames' m' place' ∧ (left=0 ∨ bottom+(page+left)*4096≤limit) ∧
        FramesAdded frames (bottom/4096+page) left frames' := by
  induction left generalizing page m place frames with
  | zero =>
    exact Or.inr ⟨m,place,frames,rfl,h,Or.inl rfl,fun v h1 h2 => by omega,fun _ _ => rfl⟩
  | succ left ih =>
    have hlt : bottom+page*4096<2 ^ 64 := by omega
    have haddr : 0xFFFF800000000000≤bottom+page*4096 := by omega
    have haligned : (bottom+page*4096)%4096=0 := by omega
    have hdiv := stackPage_div bottom page
    rw [mapStackPages,Nat.mod_eq_of_lt hlt]
    rcases h.map haddr haligned with ⟨m',hmap,hback⟩ | ⟨m',place',p,hmap,hquery,hback⟩
    · rw [hmap]
      obtain ⟨place',hrolled⟩ := rollbackStackPages_backed page hback halign hlt.le hframes
      exact Or.inl ⟨_,place',rfl,hrolled⟩
    rw [hmap]
    rw [hdiv] at hback
    have hframe : frames (bottom/4096+page)=none := by
      by_contra hsome
      obtain ⟨p',hp'⟩ := Option.ne_none_iff_exists'.mp hsome
      rw [← hdiv] at hp'
      rw [h.view_some haddr hp'] at hquery
      cases hquery
    have hless : bottom+page*4096<limit := by
      rcases hroom with hless | ⟨-,hold⟩
      · exact hless
      · rw [h.view_none haddr (by rw [hdiv]; exact hframe)] at hquery
        exact absurd hquery hold
    have hnext : bottom+(page+1)*4096<limit ∨ (bottom+(page+1)*4096<2 ^ 64 ∧
        kernelQuery (bottom+(page+1)*4096) m₀≠none) := by
      have hle := nextPage_le hless haligned hlimitAlign
      rw [Nat.succ_mul,← Nat.add_assoc]
      rcases Nat.lt_or_eq_of_le hle with hlt' | heq
      · exact Or.inl hlt'
      · rw [heq]
        exact Or.inr ⟨hlimit,htaken⟩
    have hframes' : ∀ k<page+1,
        update frames (bottom/4096+page) (some p) (bottom/4096+k)≠none := by
      intro k hk
      by_cases hkp : k=page
      · rw [hkp,update_self]
        simp
      · rw [update_of_ne (by omega)]
        exact hframes k (by omega)
    rcases ih (page+1) hback hnext hframes' with
      ⟨m'',place'',heq,hrolled⟩ | ⟨m'',place'',frames',heq,hdone,hroom',hadded⟩
    · rw [clearFrames_added hframe] at hrolled
      exact Or.inl ⟨m'',place'',heq,hrolled⟩
    refine Or.inr ⟨m'',place'',frames',heq,hdone,Or.inr (by omega),?_,?_⟩
    · intro v h1 h2
      by_cases hv : v=bottom/4096+page
      · rw [hadded.outside v (by omega),hv,update_self]
        simp
      · exact hadded.inside v (by omega) (by omega)
    · intro v hv
      rw [hadded.outside v (by omega),update_of_ne (by omega)]

/-- The loop of free. -/
theorem freeStackPages_backed (left page : Nat) (h : Backed m₀ place₀ frames m place)
    (halign : bottom%4096=0) (hbound : bottom+(page+left)*4096≤2 ^ 64)
    (hframes : ∀ k, page≤k → k<page+left → frames (bottom/4096+k)≠none) :
    ∃ place', Backed m₀ place₀ (clearFrames frames (bottom/4096+page) left)
        (freeStackPages bottom left page m) place' ∧
      Shrunk m place (freeStackPages bottom left page m) place' ∧
      ∀ c, place c≠none → place' c=none →
        ∃ k, page≤k ∧ k<page+left ∧ Through m (bottom+k*4096) c := by
  induction left generalizing page m place frames with
  | zero =>
    rw [clearFrames_zero]
    exact ⟨place,h,Shrunk.refl m place,fun c hc hno => absurd hno hc⟩
  | succ left ih =>
    have hlt : bottom+page*4096<2 ^ 64 := by omega
    have haligned : (bottom+page*4096)%4096=0 := by omega
    have hdiv := stackPage_div bottom page
    have hbound' : bottom+(page+1+left)*4096≤2 ^ 64 := by
      rw [Nat.add_assoc page,Nat.add_comm 1]
      exact hbound
    obtain ⟨p,hp⟩ := Option.ne_none_iff_exists'.mp (hframes page (Nat.le_refl _) (by omega))
    rw [← hdiv] at hp
    rw [freeStackPages,Nat.mod_eq_of_lt hlt]
    obtain ⟨place₁,hback,hshrunk,hgone⟩ := h.unmap haligned hp
    rw [hdiv] at hback
    have hframes' : ∀ k, page+1≤k → k<page+1+left →
        update frames (bottom/4096+page) none (bottom/4096+k)≠none := by
      intro k h1 h2
      rw [update_of_ne (by omega)]
      exact hframes k (by omega) (by omega)
    obtain ⟨place',hfreed,hshrunk',hgone'⟩ := ih (page+1) hback hbound' hframes'
    rw [show bottom/4096+(page+1)=bottom/4096+page+1 by omega,clearFrames_first]
      at hfreed
    refine ⟨place',hfreed,hshrunk.trans hshrunk',?_⟩
    intro c hc hno
    by_cases hnow : place₁ c=none
    · exact ⟨page,Nat.le_refl _,by omega,hgone c hc hnow⟩
    obtain ⟨k,h1,h2,hthrough⟩ := hgone' c hnow hno
    refine ⟨k,by omega,by omega,?_⟩
    obtain ⟨p',hp'⟩ := Option.ne_none_iff_exists'.mp (hframes k (by omega) (by omega))
    have hdivk := stackPage_div bottom k
    rw [← hdivk] at hp'
    have haddr : 0xFFFF800000000000≤bottom+k*4096 := by
      have := (h.base hp').1
      omega
    have hc : addressIsCanonical (bottom+k*4096)=true := by
      refine canonical_of_query (m := m) ?_
      rw [h.view_some haddr hp']
      simp
    exact hshrunk.through hback.grown.sound.tables haddr hc hthrough

end Loops

/-- The kernel before its first stack: no table is empty, nothing is mapped from the base of the
stack region up to `limit`, and there the kernel's image begins. -/
structure StackRegion (m : Machine) (place : Nat → Option Place) (limit : Nat) : Prop where
  tables : SoundTables (m.kernelRoot/4096) m place
  low : stackRegionBase≤limit
  high : limit+4096<2 ^ 64
  aligned : limit%4096=0
  free : ∀ a, stackRegionBase≤a → a<limit → kernelQuery a m=none
  image : kernelQuery limit m≠none ∧ kernelQuery (limit+4096) m≠none

/-- A stack with its guard page lies in the region below `next`. -/
structure StackShape (next : Nat) (stack : KernelStack) : Prop where
  low : stackRegionBase ≤ stack.guardBase
  aligned : stack.guardBase%4096=0
  bottom : stack.bottom=stack.guardBase+4096
  top : stack.top=stack.bottom+stack.pageCount*4096
  pages : stack.pageCount≠0
  below : stack.top≤next

/-- The invariant of the run: the pages of the live stacks are the mapped ones. -/
structure StacksInv (m₀ : Machine) (place₀ : Nat → Option Place) (limit : Nat)
    (frames : Nat → Option Nat) (place : Nat → Option Place) (w : Stacks) : Prop where
  backed : Backed m₀ place₀ frames w.area.machine place
  low : stackRegionBase≤w.area.nextStackBase
  high : w.area.nextStackBase≤limit
  aligned : w.area.nextStackBase%4096=0
  shape : ∀ stack ∈ w.live, StackShape w.area.nextStackBase stack
  apart : w.live.Pairwise (fun later earlier => earlier.top≤later.guardBase)
  pages : ∀ v, frames v≠none ↔ ∃ stack ∈ w.live, stack.bottom/4096≤v ∧ v<stack.top/4096

/-- The live stacks are disjoint and mapped, and there is nothing on their guard pages. -/
structure StacksGuarded (w : Stacks) : Prop where
  disjoint : w.live.Pairwise (fun s t => s.top≤t.bottom ∨ t.top ≤ s.bottom)
  mapped : ∀ stack ∈ w.live, ∀ a, stack.bottom≤a → a<stack.top → ∃ physical,
    kernelQuery a w.area.machine=some (physical, vmmPresent ||| (vmmWritable ||| vmmNoExecute))
  guarded : ∀ stack ∈ w.live, stack.bottom=stack.guardBase+4096 ∧
    ∀ a, stack.guardBase≤a → a<stack.bottom → kernelQuery a w.area.machine=none

/-- A page table on the way to the stack through which nothing else is mapped. -/
def StackTable (m : Machine) (stack : KernelStack) (q : Nat) : Prop :=
  (∃ a, stack.bottom≤a ∧ a<stack.top ∧ Through m a q) ∧
    ∀ a, 0xFFFF800000000000≤a → Through m a q → kernelQuery a m≠none →
      stack.bottom≤a ∧ a<stack.top

/-- Freeing the stack gives back its pages and the tables used for it alone. -/
def FreesExactly (stack : KernelStack) (s : StackArea) : Prop :=
  ∀ p, ((kernelStackFree stack s).2.machine.pmm.bitmap p=true ↔
    s.machine.pmm.bitmap p=true ∧
      ¬ ((∃ a flags, stack.bottom≤a ∧ a<stack.top ∧
          kernelQuery a s.machine=some (p*4096+a%4096,flags)) ∨
        StackTable s.machine stack p))

/-- The translations of the kernel's half, the free pages and the next base are the same. -/
structure SameArea (s s' : StackArea) : Prop where
  query : ∀ a, 0xFFFF800000000000≤a → kernelQuery a s'.machine=kernelQuery a s.machine
  bitmap : ∀ p, s'.machine.pmm.bitmap p=s.machine.pmm.bitmap p
  nextStackBase : s'.nextStackBase=s.nextStackBase

section Run

variable {m₀ : Machine} {place₀ place : Nat → Option Place} {limit : Nat}
  {frames : Nat → Option Nat} {w : Stacks} {a next : Nat} {stack : KernelStack}

theorem region_upper (h : stackRegionBase≤a) : 0xFFFF800000000000≤a :=
  Nat.le_trans (by decide) h

/-- What alloc starts with. -/
structure AllocStart (limit bottom : Nat) (m₀ : Machine) : Prop where
  low : 0xFFFF800000000000≤bottom
  aligned : bottom%4096=0
  room : bottom+0*4096<limit ∨
    (bottom+0*4096<2 ^ 64 ∧ kernelQuery (bottom+0*4096) m₀≠none)

theorem AllocStart.of_next {m : Machine} (hlow : stackRegionBase≤next)
    (hhigh : next≤limit) (haligned : next%4096=0) (hlimit : limit+4096<2 ^ 64)
    (hlimitAligned : limit%4096=0)
    (himage : kernelQuery limit m≠none ∧ kernelQuery (limit+4096) m≠none) :
    AllocStart limit (next+4096) m := by
  have hupper := region_upper hlow
  refine ⟨by omega,by omega,?_⟩
  rw [Nat.zero_mul,Nat.add_zero]
  obtain heq | heq | hless : next+4096=limit ∨ next=limit ∨ next+4096<limit := by omega
  · right
    rw [heq]
    exact ⟨by omega,himage.1⟩
  · right
    rw [heq]
    exact ⟨hlimit,himage.2⟩
  · exact Or.inl hless

theorem StacksInv.image (inv : StacksInv m₀ place₀ limit frames place w)
    (region : StackRegion m₀ place₀ limit) :
    kernelQuery limit w.area.machine≠none ∧ kernelQuery (limit+4096) w.area.machine≠none := by
  have hupper := region_upper region.low
  obtain ⟨h1,h2⟩ := region.image
  rw [(inv.backed.grown.kernelQuery_base hupper h1).1,
    (inv.backed.grown.kernelQuery_base (by omega) h2).1]
  exact ⟨h1,h2⟩

/-- A failed alloc undoes all it did. -/
theorem StacksInv.alloc_none (inv : StacksInv m₀ place₀ limit frames place w)
    (region : StackRegion m₀ place₀ limit) {n : Nat}
    (h : (kernelStackAlloc n w.area).1=none) :
    SameArea w.area (kernelStackAlloc n w.area).2 := by
  rw [kernelStackAlloc] at h ⊢
  by_cases hn : n=0
  · rw [if_pos hn]
    exact ⟨fun _ _ => rfl,fun _ => rfl,rfl⟩
  rw [if_neg hn] at h ⊢
  have hhigh := region.high
  have hnext := inv.high
  have himage := inv.image region
  have hmod : (w.area.nextStackBase+4096)%2 ^ 64=w.area.nextStackBase+4096 :=
    Nat.mod_eq_of_lt (by omega)
  simp only [hmod] at h ⊢
  have start := AllocStart.of_next inv.low hnext inv.aligned hhigh region.aligned himage
  have hbase := Backed.refl inv.backed.grown.settled
  rcases mapStackPages_backed n 0 hbase start.low start.aligned (by omega) region.aligned
      himage.1 start.room (by omega) with
    ⟨m',place',heq,hback⟩ | ⟨m',place',frames',heq,-⟩
  · rw [heq] at h ⊢
    rw [clearFrames_zero] at hback
    have hview (a : Nat) (ha : 0xFFFF800000000000≤a) :
        kernelQuery a m'=kernelQuery a w.area.machine := hback.view a ha
    refine ⟨hview,?_,rfl⟩
    intro p
    have hplace := hback.grown.place_eq hview
    have haccount := hback.grown.account p
    rw [hplace] at haccount
    rw [Bool.eq_iff_iff,haccount]
    have hnot : ¬ (place p≠none ∧ place p=none) := fun hp => hp.1 hp.2
    simp [hnot]
  · rw [heq] at h
    cases h

theorem StackShape.mono {next' : Nat} (h : StackShape next stack)
    (hle : next≤next') : StackShape next' stack :=
  { h with below := Nat.le_trans h.below hle }

theorem StackShape.page_div (h : StackShape next stack) :
    stack.bottom%4096=0 ∧ stack.top/4096=stack.bottom/4096+stack.pageCount := by
  have hbottom := h.bottom
  have haligned := h.aligned
  refine ⟨by omega,?_⟩
  rw [h.top,stackPage_div]

/-- One call of alloc. -/
theorem StacksInv.alloc (inv : StacksInv m₀ place₀ limit frames place w)
    (region : StackRegion m₀ place₀ limit) (n : Nat) :
    ∃ frames' place', StacksInv m₀ place₀ limit frames' place'
      ((StackCall.alloc n).run w) := by
  rw [StackCall.run,kernelStackAlloc]
  by_cases hn : n=0
  · rw [if_pos hn]
    exact ⟨frames,place,inv⟩
  rw [if_neg hn]
  have hhigh := region.high
  have hnext := inv.high
  have hlow := inv.low
  have hmod : (w.area.nextStackBase+4096)%2 ^ 64=w.area.nextStackBase+4096 :=
    Nat.mod_eq_of_lt (by omega)
  simp only [hmod]
  have start := AllocStart.of_next hlow hnext inv.aligned hhigh region.aligned region.image
  rcases mapStackPages_backed n 0 inv.backed start.low start.aligned (by omega) region.aligned
      region.image.1 start.room (by omega) with
    ⟨m',place',heq,hback⟩ | ⟨m',place',frames',heq,hback,hroom,hadded⟩
  · rw [heq]
    rw [clearFrames_zero] at hback
    exact ⟨frames,place',hback,hlow,hnext,inv.aligned,inv.shape,inv.apart,inv.pages⟩
  rw [heq]
  have hend : w.area.nextStackBase+4096+n*4096≤limit := by
    rcases hroom with hzero | hroom
    · exact absurd hzero hn
    · rwa [Nat.zero_add] at hroom
  have hmod' : (w.area.nextStackBase+4096+n*4096)%2 ^ 64 =
      w.area.nextStackBase+4096+n*4096 := Nat.mod_eq_of_lt (by omega)
  simp only [hmod']
  have haligned := inv.aligned
  rw [Nat.add_zero] at hadded
  refine ⟨frames',place',hback,?_,hend,?_,?_,?_,?_⟩
  · show stackRegionBase≤w.area.nextStackBase+4096+n*4096
    omega
  · show (w.area.nextStackBase+4096+n*4096)%4096=0
    omega
  · intro stack hstack
    rcases mem_cons.mp hstack with rfl | hstack
    · exact ⟨hlow,haligned,rfl,rfl,hn,Nat.le_refl _⟩
    · exact (inv.shape stack hstack).mono (by dsimp only; omega)
  · refine pairwise_cons.mpr ⟨?_,inv.apart⟩
    intro stack hstack
    exact (inv.shape stack hstack).below
  intro v
  have hdiv := stackPage_div (w.area.nextStackBase+4096) n
  by_cases hv : (w.area.nextStackBase+4096)/4096≤v ∧
      v<(w.area.nextStackBase+4096)/4096+n
  · refine iff_of_true (hadded.inside v hv.1 hv.2) ⟨_,mem_cons_self,hv.1,?_⟩
    rw [hdiv]
    exact hv.2
  rw [hadded.outside v hv,inv.pages v]
  constructor
  · intro ⟨stack,hstack,hin⟩
    exact ⟨stack,mem_cons_of_mem _ hstack,hin⟩
  intro ⟨stack,hstack,hin⟩
  rcases mem_cons.mp hstack with rfl | hstack
  · rw [hdiv] at hin
    exact absurd hin hv
  · exact ⟨stack,hstack,hin⟩

theorem StacksInv.frames_some (inv : StacksInv m₀ place₀ limit frames place w)
    (hstack : stack ∈ w.live) (k : Nat) (hk : k<0+stack.pageCount) :
    frames (stack.bottom/4096+k)≠none := by
  have hdiv := (inv.shape stack hstack).page_div.2
  exact (inv.pages _).mpr ⟨stack,hstack,by omega,by omega⟩

theorem StacksInv.stack_bound (inv : StacksInv m₀ place₀ limit frames place w)
    (region : StackRegion m₀ place₀ limit) (hstack : stack ∈ w.live) :
    stack.bottom+(0+stack.pageCount)*4096≤2 ^ 64 := by
  have hshape := inv.shape stack hstack
  have hnext := inv.high
  have hhigh := region.high
  rw [Nat.zero_add,← hshape.top]
  have := hshape.below
  omega

/-- What freeing a live stack leaves. -/
theorem StacksInv.free_backed (inv : StacksInv m₀ place₀ limit frames place w)
    (region : StackRegion m₀ place₀ limit) (hstack : stack ∈ w.live) :
    ∃ place', Backed m₀ place₀ (clearFrames frames (stack.bottom/4096) stack.pageCount)
        (kernelStackFree stack w.area).2.machine place' ∧
      Shrunk w.area.machine place (kernelStackFree stack w.area).2.machine place' ∧
      ∀ c, place c≠none → place' c=none →
        ∃ k<stack.pageCount, Through w.area.machine (stack.bottom+k*4096) c := by
  have hshape := inv.shape stack hstack
  rw [kernelStackFree,if_neg hshape.pages]
  obtain ⟨place',hback,hshrunk,hgone⟩ := freeStackPages_backed stack.pageCount 0 inv.backed
    hshape.page_div.1 (inv.stack_bound region hstack) (fun k _ => inv.frames_some hstack k)
  rw [Nat.add_zero] at hback
  refine ⟨place',hback,hshrunk,?_⟩
  intro c hc hno
  obtain ⟨k,-,hk,hthrough⟩ := hgone c hc hno
  exact ⟨k,by omega,hthrough⟩

/-- One call of free. -/
theorem StacksInv.free (inv : StacksInv m₀ place₀ limit frames place w)
    (region : StackRegion m₀ place₀ limit) (index : Nat) :
    ∃ frames' place', StacksInv m₀ place₀ limit frames' place'
      ((StackCall.free index).run w) := by
  rw [StackCall.run]
  cases hget : w.live[index]? with
  | none => exact ⟨frames,place,inv⟩
  | some stack =>
    dsimp only
    have hstack := mem_of_getElem? hget
    have hshape := inv.shape stack hstack
    obtain ⟨place',hback,-⟩ := inv.free_backed region hstack
    have hnext : (kernelStackFree stack w.area).2.nextStackBase=w.area.nextStackBase := by
      rw [kernelStackFree,if_neg hshape.pages]
    have hsplit : w.live=w.live.take index ++ stack :: w.live.drop (index+1) := by
      obtain ⟨hlt,heq⟩ := List.getElem?_eq_some_iff.mp hget
      rw [← heq,cons_getElem_drop_succ,take_append_drop]
    have hsub : (w.live.eraseIdx index).Sublist w.live := eraseIdx_sublist ..
    -- the other stacks lie on one side of this one
    have hother : ∀ other ∈ w.live.eraseIdx index,
        other.top ≤ stack.guardBase ∨ stack.top≤other.guardBase := by
      intro other hmem
      have hpair := inv.apart
      rw [hsplit,pairwise_append,pairwise_cons] at hpair
      rw [eraseIdx_eq_take_drop_succ,mem_append] at hmem
      rcases hmem with hmem | hmem
      · exact Or.inr (hpair.2.2 other hmem stack mem_cons_self)
      · exact Or.inl (hpair.2.1.1 other hmem)
    refine ⟨_,place',hback,?_,?_,?_,?_,inv.apart.sublist hsub,?_⟩
    · rw [hnext]
      exact inv.low
    · rw [hnext]
      exact inv.high
    · rw [hnext]
      exact inv.aligned
    · intro other hmem
      rw [hnext]
      exact inv.shape other (hsub.subset hmem)
    intro v
    rw [clearFrames]
    have hdiv := hshape.page_div.2
    split_ifs with hv
    · refine iff_of_false (by simp) ?_
      rintro ⟨other,hmem,h1,h2⟩
      have hshape' := inv.shape other (hsub.subset hmem)
      have hbottom := hshape.bottom
      have hbottom' := hshape'.bottom
      have haligned := hshape.aligned
      rcases hother other hmem with hle | hle <;> omega
    rw [inv.pages v]
    constructor
    · rintro ⟨other,hmem,hin⟩
      rw [hsplit,mem_append,mem_cons] at hmem
      refine ⟨other,?_,hin⟩
      rw [eraseIdx_eq_take_drop_succ,mem_append]
      rcases hmem with hmem | rfl | hmem
      · exact Or.inl hmem
      · rw [hdiv] at hin
        exact absurd hin hv
      · exact Or.inr hmem
    · rintro ⟨other,hmem,hin⟩
      exact ⟨other,hsub.subset hmem,hin⟩

theorem StacksInv.run (inv : StacksInv m₀ place₀ limit frames place w)
    (region : StackRegion m₀ place₀ limit) (calls : List StackCall) :
    ∃ frames' place', StacksInv m₀ place₀ limit frames' place' (runStackCalls calls w) := by
  induction calls generalizing w frames place with
  | nil => exact ⟨frames,place,inv⟩
  | cons call calls ih =>
    have hstep : ∃ frames' place', StacksInv m₀ place₀ limit frames' place' (call.run w) := by
      cases call with
      | alloc n => exact inv.alloc region n
      | free index => exact inv.free region index
    obtain ⟨frames',place',inv'⟩ := hstep
    exact ih inv'

theorem stackRegionBase_aligned : stackRegionBase%4096=0 := by decide

theorem StacksInv.start (region : StackRegion m₀ place₀ limit) :
    StacksInv m₀ place₀ limit (fun _ => none) place₀ ⟨⟨m₀,stackRegionBase⟩,[]⟩ where
  backed := Backed.refl region.tables
  low := Nat.le_refl _
  high := region.low
  aligned := stackRegionBase_aligned
  shape := by simp
  apart := List.Pairwise.nil
  pages := by simp

theorem StacksInv.sides (inv : StacksInv m₀ place₀ limit frames place w) {s t : KernelStack}
    (hs : s ∈ w.live) (ht : t ∈ w.live) :
    s=t ∨ s.top≤t.guardBase ∨ t.top ≤ s.guardBase := by
  have hsymm : Std.Symm (fun s t : KernelStack =>
      s=t ∨ s.top≤t.guardBase ∨ t.top ≤ s.guardBase) := by
    refine ⟨?_⟩
    rintro s t (rfl | h | h)
    · exact Or.inl rfl
    · exact Or.inr (Or.inr h)
    · exact Or.inr (Or.inl h)
  have hpairs : w.live.Pairwise (fun s t => s=t ∨ s.top≤t.guardBase ∨ t.top ≤ s.guardBase) :=
    inv.apart.imp (fun h => Or.inr (Or.inr h))
  have hself : ∀ s ∈ w.live, s=s ∨ s.top ≤ s.guardBase ∨ s.top ≤ s.guardBase :=
    fun _ _ => Or.inl rfl
  exact hpairs.forall_of_forall hself hs ht

theorem StacksInv.guarded (inv : StacksInv m₀ place₀ limit frames place w)
    (region : StackRegion m₀ place₀ limit) : StacksGuarded w := by
  have hnext := inv.high
  refine ⟨?_,?_,?_⟩
  · refine inv.apart.imp_of_mem ?_
    intro s t hs _ hle
    right
    have := (inv.shape s hs).bottom
    omega
  · intro stack hstack a h1 h2
    have hshape := inv.shape stack hstack
    have hdiv := hshape.page_div
    have hbottom := hshape.bottom
    have htop := hshape.top
    have hupper := region_upper hshape.low
    have hsome : frames (a/4096)≠none :=
      (inv.pages _).mpr ⟨stack,hstack,by omega,by omega⟩
    obtain ⟨p,hp⟩ := Option.ne_none_iff_exists'.mp hsome
    exact ⟨_,inv.backed.view_some (by omega) hp⟩
  intro stack hstack
  have hshape := inv.shape stack hstack
  have hbottom := hshape.bottom
  have haligned := hshape.aligned
  have hbelow := hshape.below
  have htop := hshape.top
  have hlow := hshape.low
  have hupper := region_upper hlow
  refine ⟨hbottom,?_⟩
  intro a h1 h2
  have hnone : frames (a/4096)=none := by
    by_contra hsome
    obtain ⟨other,hother,h3,h4⟩ := (inv.pages _).mp hsome
    have hshape' := inv.shape other hother
    have hbottom' := hshape'.bottom
    have haligned' := hshape'.aligned
    have hdiv' := hshape'.page_div
    rcases inv.sides hother hstack with rfl | hle | hle
    · omega
    · omega
    · omega
  rw [inv.backed.view_none (by omega) hnone]
  exact region.free a (by omega) (by omega)

theorem StackShape.in_stack (h : StackShape next stack) :
    stack.bottom≤a ∧ a<stack.top ↔
      stack.bottom/4096≤a/4096 ∧ a/4096<stack.bottom/4096+stack.pageCount := by
  obtain ⟨haligned,hdiv⟩ := h.page_div
  have htop := h.top
  rw [← hdiv]
  constructor
  · intro hin
    omega
  · intro hin
    omega

/-- A stack was freed: its pages are gone, all others are as they were. -/
structure StackFreed (m₀ : Machine) (place₀ : Nat → Option Place) (frames : Nat → Option Nat)
    (stack : KernelStack) (m : Machine) (place : Nat → Option Place) (m' : Machine)
    (place' : Nat → Option Place) : Prop where
  before : Backed m₀ place₀ frames m place
  after : Backed m₀ place₀ (clearFrames frames (stack.bottom/4096) stack.pageCount) m' place'
  shrunk : Shrunk m place m' place'
  tables : ∀ c, place c≠none → place' c=none →
    ∃ a, stack.bottom≤a ∧ a<stack.top ∧ Through m a c
  frame : ∀ a, stack.bottom≤a → a<stack.top → ∃ p, frames (a/4096)=some p
  gone : ∀ a, stack.bottom≤a → a<stack.top →
    kernelQuery a m₀=none ∧ kernelQuery a m'=none
  other : ∀ a, 0xFFFF800000000000≤a → ¬ (stack.bottom≤a ∧ a<stack.top) →
    kernelQuery a m'=kernelQuery a m

theorem StacksInv.freed (inv : StacksInv m₀ place₀ limit frames place w)
    (region : StackRegion m₀ place₀ limit) (hstack : stack ∈ w.live) :
    ∃ place', StackFreed m₀ place₀ frames stack w.area.machine place
      (kernelStackFree stack w.area).2.machine place' := by
  have hshape := inv.shape stack hstack
  have hlow := region_upper hshape.low
  have hbottom := hshape.bottom
  have h := inv.backed
  obtain ⟨place',hback,hshrunk,hgone⟩ := inv.free_backed region hstack
  have hframe (a : Nat) (h1 : stack.bottom≤a) (h2 : a<stack.top) :
      ∃ p, frames (a/4096)=some p := by
    refine Option.ne_none_iff_exists'.mp ((inv.pages _).mpr ⟨stack,hstack,?_⟩)
    rw [hshape.page_div.2]
    exact hshape.in_stack.mp ⟨h1,h2⟩
  refine ⟨place',h,hback,hshrunk,?_,hframe,?_,?_⟩
  · intro c hc hno
    obtain ⟨k,hk,hthrough⟩ := hgone c hc hno
    refine ⟨_,Nat.le_add_right _ _,?_,hthrough⟩
    rw [hshape.top]
    omega
  · intro a h1 h2
    obtain ⟨p,hp⟩ := hframe a h1 h2
    have hbase := (h.base hp).2 a rfl
    refine ⟨hbase,?_⟩
    rw [hback.view_none (by omega) (by rw [clearFrames,if_pos (hshape.in_stack.mp ⟨h1,h2⟩)])]
    exact hbase
  · intro a hupper hout
    rw [hback.view a hupper,h.view a hupper,clearFrames,
      if_neg (fun hv => hout (hshape.in_stack.mpr hv))]

section Freed

variable {stack : KernelStack} {m m' : Machine} {place' : Nat → Option Place} {p : Nat}

/-- The tables on the way to a page of the stack through which nothing else goes are gone. -/
theorem StackFreed.table_gone (h : StackFreed m₀ place₀ frames stack m place m' place')
    (himage : ∃ a, 0xFFFF800000000000≤a ∧ stack.top≤a ∧ kernelQuery a m≠none)
    (hlow : 0xFFFF800000000000 ≤ stack.bottom) (ht : StackTable m stack p) :
    m'.pmm.bitmap p=false := by
  obtain ⟨⟨a,h1,h2,i,hvisit⟩,honly⟩ := ht
  have grown := h.before.grown
  have grown' := h.after.grown
  have hc : addressIsCanonical a=true := by
    obtain ⟨q,hq⟩ := h.frame a h1 h2
    refine canonical_of_query (m := m) ?_
    rw [h.before.view_some (by omega) hq]
    simp
  -- a table below the root
  have hroot : p≠m.kernelRoot/4096 := by
    rintro rfl
    obtain ⟨b,hupper,htop,hquery⟩ := himage
    have hin := honly b hupper ⟨_,Or.inl ⟨rfl,rfl⟩⟩ hquery
    omega
  obtain ⟨l,htable⟩ : ∃ l, IsTable m place p l :=
    (Shrunk.refl m place).visits grown.sound.tables (upperPath_tableIndices (by omega) hc)
      (Or.inl ⟨rfl,rfl⟩) hvisit |>.2
  obtain ⟨pl,hplace⟩ : ∃ pl, place p=some pl := by
    rcases htable with ⟨hp,-⟩ | ⟨t,j,hp⟩
    · exact absurd hp hroot
    · exact ⟨_,hp⟩
  have hfresh : place₀ p=none := by
    by_contra hsome
    obtain ⟨pl₀,hpl₀⟩ := Option.ne_none_iff_exists'.mp hsome
    obtain ⟨b,hupper,hquery,hthrough⟩ := grown.base.table_address hpl₀
    obtain ⟨heq,hvisits⟩ := grown.kernelQuery_base hupper hquery
    obtain ⟨h1,h2⟩ := honly b hupper ((hvisits p).2 hthrough) (by rw [heq]; exact hquery)
    exact hquery (h.gone b h1 h2).1
  by_contra hused
  rcases (grown'.account p).mp (by simpa using hused) with hbase | ⟨hplace',-⟩ | ⟨v,hv⟩
  · rw [(grown.own hplace hfresh).2] at hbase
    cases hbase
  · obtain ⟨pl',hpl'⟩ := Option.ne_none_iff_exists'.mp hplace'
    obtain ⟨b,hupper,hquery,hthrough⟩ := grown'.settled.table_address hpl'
    have hthrough' := h.shrunk.through grown'.sound.tables hupper (canonical_of_query hquery)
      hthrough
    by_cases hin : stack.bottom≤b ∧ b<stack.top
    · exact hquery (h.gone b hin.1 hin.2).2
    · rw [h.other b hupper hin] at hquery
      exact hin (honly b hupper hthrough' hquery)
  · rw [clearFrames] at hv
    split_ifs at hv
    rw [(grown.held ⟨v,hv⟩).2.1] at hplace
    cases hplace

theorem StackFreed.frame_gone (h : StackFreed m₀ place₀ frames stack m place m' place')
    {v : Nat} (hv : frames v=some p)
    (hin : stack.bottom/4096≤v ∧ v<stack.bottom/4096+stack.pageCount) :
    m'.pmm.bitmap p=false := by
  obtain ⟨-,hplace,hb⟩ := h.before.grown.held ⟨v,hv⟩
  by_contra hused
  rcases (h.after.grown.account p).mp (by simpa using hused) with hbase | ⟨hplace',-⟩ | ⟨v',hv'⟩
  · rw [hb] at hbase
    cases hbase
  · obtain ⟨pl,hpl⟩ := Option.ne_none_iff_exists'.mp hplace'
    rw [h.shrunk.placed hpl] at hplace
    cases hplace
  rw [clearFrames] at hv'
  split_ifs at hv' with hout
  rw [h.before.injective hv' hv] at hout
  exact hout hin

/-- And nothing else is. -/
theorem StackFreed.gone_cases (h : StackFreed m₀ place₀ frames stack m place m' place')
    (hused : m.pmm.bitmap p=true) (hgone : m'.pmm.bitmap p=false) :
    (∃ v, frames v=some p ∧ stack.bottom/4096≤v ∧
        v<stack.bottom/4096+stack.pageCount) ∨ StackTable m stack p := by
  have hnot : ¬ (m₀.pmm.bitmap p=true ∨ (place' p≠none ∧ place₀ p=none) ∨
      p ∈ { q | ∃ v, clearFrames frames (stack.bottom/4096) stack.pageCount v=some q }) := by
    rw [← h.after.grown.account p,hgone]
    simp
  rcases (h.before.grown.account p).mp hused with hbase | ⟨hplace,hno⟩ | ⟨v,hv⟩
  · exact absurd (Or.inl hbase) hnot
  · right
    have hplace' : place' p=none := by
      by_contra hsome
      exact hnot (Or.inr (Or.inl ⟨hsome,hno⟩))
    refine ⟨h.tables p hplace hplace',?_⟩
    intro a hupper hthrough hquery
    by_contra hout
    rw [← h.other a hupper hout] at hquery
    obtain ⟨l,htable⟩ := h.shrunk.through_kept h.after.grown.sound.tables hupper hquery hthrough
    rcases htable with ⟨hroot,-⟩ | ⟨t,i,htable⟩
    · rw [hroot,h.shrunk.kernelRoot,h.before.grown.sound.tables.root] at hplace
      exact hplace rfl
    · rw [hplace'] at htable
      cases htable
  · left
    refine ⟨v,hv,?_⟩
    by_contra hout
    refine hnot (Or.inr (Or.inr ⟨v,?_⟩))
    rw [clearFrames,if_neg hout]
    exact hv

theorem StackFreed.used (h : StackFreed m₀ place₀ frames stack m place m' place')
    (hused : m'.pmm.bitmap p=true) : m.pmm.bitmap p=true := by
  refine (h.before.grown.account p).mpr ?_
  rcases (h.after.grown.account p).mp hused with hbase | ⟨hplace,hno⟩ | ⟨v,hv⟩
  · exact Or.inl hbase
  · obtain ⟨pl,hpl⟩ := Option.ne_none_iff_exists'.mp hplace
    right
    left
    rw [h.shrunk.placed hpl]
    exact ⟨by simp,hno⟩
  · rw [clearFrames] at hv
    split_ifs at hv
    exact Or.inr (Or.inr ⟨v,hv⟩)

end Freed

/-- Freeing a live stack gives back its frames and the tables nothing else needs. -/
theorem StacksInv.frees_exactly (inv : StacksInv m₀ place₀ limit frames place w)
    (region : StackRegion m₀ place₀ limit) (hstack : stack ∈ w.live) :
    FreesExactly stack w.area := by
  have hshape := inv.shape stack hstack
  have hlow := region_upper hshape.low
  have hbottom := hshape.bottom
  have hbelow := hshape.below
  have hnext := inv.high
  obtain ⟨place',h⟩ := inv.freed region hstack
  have himage : ∃ a, 0xFFFF800000000000≤a ∧ stack.top≤a ∧
      kernelQuery a w.area.machine≠none :=
    ⟨limit,region_upper region.low,by omega,(inv.image region).1⟩
  intro p
  constructor
  · intro hused
    refine ⟨h.used hused,?_⟩
    rintro (⟨a,flags,h1,h2,hquery⟩ | htable)
    · obtain ⟨q,hq⟩ := h.frame a h1 h2
      rw [inv.backed.view_some (by omega) hq] at hquery
      simp only [Option.some.injEq,Prod.mk.injEq] at hquery
      have hqp : q=p := by omega
      subst hqp
      rw [h.frame_gone hq (hshape.in_stack.mp ⟨h1,h2⟩)] at hused
      cases hused
    · rw [h.table_gone himage (by omega) htable] at hused
      cases hused
  · intro ⟨hused,hnot⟩
    by_contra hgone
    rcases h.gone_cases hused (by simpa using hgone) with ⟨v,hv,hin⟩ | htable
    · refine hnot (Or.inl ⟨v*4096,vmmPresent ||| stackFlags,?_⟩)
      have hdiv : v*4096/4096=v := Nat.mul_div_cancel _ (by omega)
      obtain ⟨h1,h2⟩ := hshape.in_stack.mpr (by rw [hdiv]; exact hin)
      refine ⟨h1,h2,?_⟩
      exact inv.backed.view_some (by omega) (by rw [hdiv]; exact hv)
    · exact hnot (Or.inr htable)

/-- Kernel stacks are disjoint and guarded, a failed alloc leaves no trace, and a free gives back
exactly the stack's pages and the page tables used for them alone. -/
theorem kernel_stacks_guarded (region : StackRegion m₀ place₀ limit) (calls : List StackCall) :
    let w := runStackCalls calls ⟨⟨m₀,stackRegionBase⟩,[]⟩
    StacksGuarded w ∧ (∀ stack ∈ w.live, FreesExactly stack w.area) ∧
      ∀ n, (kernelStackAlloc n w.area).1=none →
        SameArea w.area (kernelStackAlloc n w.area).2 := by
  obtain ⟨frames,place,inv⟩ := (StacksInv.start region).run region calls
  refine ⟨inv.guarded region,?_,?_⟩
  · intro stack hstack
    exact inv.frees_exactly region hstack
  · intro n hnone
    exact inv.alloc_none region hnone

end Run

section Boot

/-- A kernel whose image is one huge page at 0xFFFFFFFF80000000; pages 4 to 15 are free. -/
def bootMachine : Machine where
  mem := fun page i =>
    if page=1 ∧ i=511 then tableEntry 2 (vmmPresent ||| vmmWritable)
    else if page=2 ∧ i=510 then tableEntry 3 (vmmPresent ||| vmmWritable)
    else if page=3 ∧ i=0 then vmmPresent ||| pageSizeFlag
    else 0
  pmm :=
    { bitmap := fun page => decide (page<4 ∨ 16≤page)
      pageReferences := fun _ => 0
      bitmapPhysical := 0
      bitmapPageCount := 0
      referencesPhysical := 0
      referencesPageCount := 0
      pageCount := 16
      freePages := 12
      searchStart := 0
      memoryMap := [⟨4*4096,12*4096,.usable⟩] }
  kernelRoot := 4096
  kernelPages := fun _ => false

def bootPlace (page : Nat) : Option Place :=
  if page=2 then some ⟨3,1,511⟩ else if page=3 then some ⟨2,2,510⟩ else none

theorem bootMachine_entry {q i : Nat} (h : present (bootMachine.entry q i)=true) :
    (q=1 ∧ i=511) ∨ (q=2 ∧ i=510) ∨ (q=3 ∧ i=0) := by
  simp only [entry,bootMachine] at h
  split_ifs at h with h1 h2 h3
  · exact Or.inl h1
  · exact Or.inr (Or.inl h2)
  · exact Or.inr (Or.inr h3)
  · cases h

theorem bootMachine_pmm : PmmInv bootMachine.pmm := by
  have hmanaged (page : Nat) : managed bootMachine.pmm page=true ↔ 4≤page ∧ page<16 := by
    have husable : pageIsUsable bootMachine.pmm (page*4096)=true ↔
        16384≤page*4096 ∧ (page*4096+4096)%2 ^ 64≤65536 := by
      simp [pageIsUsable,bootMachine]
    have hmeta : isMetadata bootMachine.pmm (page*4096)=false := by
      simp [isMetadata,bootMachine]
    rw [managed,hmeta,Bool.not_false,Bool.and_true,Bool.and_eq_true,decide_eq_true_eq,husable]
    omega
  refine ⟨?_,?_,Nat.zero_le _,by decide⟩
  · intro page hclear
    simp only [bootMachine,decide_eq_false_iff_not] at hclear
    rw [hmanaged]
    exact ⟨by omega,show page<16 by omega⟩
  · intro page hpage
    exact ((hmanaged page).mp hpage).2

theorem bootPlace_cases {c : Nat} {p : Place} (h : bootPlace c=some p) :
    (c=2 ∧ p=⟨3,1,511⟩) ∨ (c=3 ∧ p=⟨2,2,510⟩) := by
  rw [bootPlace] at h
  split_ifs at h with h2 h3
  · exact Or.inl ⟨h2,(Option.some.inj h).symm⟩
  · exact Or.inr ⟨h3,(Option.some.inj h).symm⟩

theorem bootMachine_isTable {q l : Nat} (h : IsTable bootMachine bootPlace q l) :
    (q=1 ∧ l=4) ∨ (q=2 ∧ l=3) ∨ (q=3 ∧ l=2) := by
  rcases h with ⟨hq,hl⟩ | ⟨t,i,hq⟩
  · exact Or.inl ⟨hq,hl⟩
  rcases bootPlace_cases hq with ⟨rfl,hp⟩ | ⟨rfl,hp⟩
  · cases hp
    exact Or.inr (Or.inl ⟨rfl,rfl⟩)
  · cases hp
    exact Or.inr (Or.inr ⟨rfl,rfl⟩)

theorem bootMachine_tables :
    SoundTables (bootMachine.kernelRoot/4096) bootMachine bootPlace := by
  refine ⟨⟨rfl,rfl,?_,?_,?_⟩,bootMachine_pmm,?_,?_⟩
  · intro c p hc
    rcases bootPlace_cases hc with ⟨rfl,rfl⟩ | ⟨rfl,rfl⟩ <;> decide
  · intro c p hc
    rcases bootPlace_cases hc with ⟨rfl,-⟩ | ⟨rfl,-⟩ <;> decide
  · intro q l i hq hl _ _ hpres hsmall
    rcases bootMachine_isTable hq with ⟨rfl,hl'⟩ | ⟨rfl,hl'⟩ | ⟨rfl,hl'⟩
    · obtain ⟨-,rfl⟩ | ⟨h,-⟩ | ⟨h,-⟩ := bootMachine_entry hpres
      · obtain rfl : l=3 := by omega
        decide
      · cases h
      · cases h
    · obtain ⟨h,-⟩ | ⟨-,rfl⟩ | ⟨h,-⟩ := bootMachine_entry hpres
      · cases h
      · obtain rfl : l=2 := by omega
        decide
      · cases h
    · obtain ⟨h,-⟩ | ⟨h,-⟩ | ⟨-,rfl⟩ := bootMachine_entry hpres
      · cases h
      · cases h
      · exact absurd hsmall (by decide)
  · intro c l q i hc
    rcases bootPlace_cases hc with ⟨rfl,hp⟩ | ⟨rfl,hp⟩
    · cases hp
      exact ⟨Or.inl ⟨rfl,rfl⟩,by decide,by decide,by decide,by decide,by decide⟩
    · cases hp
      exact ⟨Or.inr ⟨1,511,rfl⟩,by decide,by decide,by decide,by decide,by decide⟩
  · intro c p hc _
    rcases bootPlace_cases hc with ⟨rfl,-⟩ | ⟨rfl,-⟩
    · exact ⟨510,by decide,by decide⟩
    · exact ⟨0,by decide,by decide⟩

theorem bootMachine_free {a : Nat} (hlow : stackRegionBase≤a) (hhigh : a<0xFFFFFFFF80000000) :
    kernelQuery a bootMachine=none := by
  by_contra hquery
  have hc := canonical_of_query hquery
  rw [kernelQuery_canonical hc,tableIndices] at hquery
  simp only [cons_append,nil_append] at hquery
  have hlow' : 0xFFFFE00000000000≤a := hlow
  have hone : bootMachine.kernelRoot/4096=1 := rfl
  by_cases hroot : a/2 ^ 39%512=511
  · have hpres : present (bootMachine.entry (bootMachine.kernelRoot/4096) (a/2 ^ 39%512)) =
        true := by
      rw [hroot]
      decide
    have hsmall : huge (bootMachine.entry (bootMachine.kernelRoot/4096) (a/2 ^ 39%512)) =
        false := by
      rw [hroot]
      decide
    have hpage : addressPage (bootMachine.entry (bootMachine.kernelRoot/4096)
        (a/2 ^ 39%512))=2 := by
      rw [hroot]
      decide
    rw [queryFrom_down hpres hsmall (by simp),hpage] at hquery
    refine hquery (queryFrom_absent ?_)
    by_contra hpres'
    have := bootMachine_entry (by simpa using hpres')
    omega
  · refine hquery (queryFrom_absent ?_)
    by_contra hpres
    have := bootMachine_entry (by simpa using hpres)
    omega

theorem bootMachine_region : StackRegion bootMachine bootPlace 0xFFFFFFFF80000000 where
  tables := bootMachine_tables
  low := by decide
  high := by decide
  aligned := by decide
  free := fun _ hlow hhigh => bootMachine_free hlow hhigh
  image := ⟨by decide,by decide⟩

theorem boot_stacks_guarded :
    let w := runStackCalls [.alloc 2,.alloc 1,.free 1] ⟨⟨bootMachine,stackRegionBase⟩,[]⟩
    w.live.length=1 ∧ StacksGuarded w :=
  ⟨by decide +kernel,(kernel_stacks_guarded bootMachine_region [.alloc 2,.alloc 1,.free 1]).1⟩

/-- The only page of the stack is page 4, but page 5, a table, comes back with it. -/
theorem freed_stack_returns_table :
    let w := runStackCalls [.alloc 1] ⟨⟨bootMachine,stackRegionBase⟩,[]⟩
    let stack : KernelStack :=
      ⟨0xFFFFE00000000000,0xFFFFE00000001000,0xFFFFE00000002000,1⟩
    w.live=[stack] ∧
      kernelQuery stack.bottom w.area.machine =
        some (4*4096, vmmPresent ||| (vmmWritable ||| vmmNoExecute)) ∧
      w.area.machine.pmm.bitmap 5=true ∧
      (kernelStackFree stack w.area).2.machine.pmm.bitmap 5=false := by
  decide +kernel

end Boot

end ConeOS.Memory
