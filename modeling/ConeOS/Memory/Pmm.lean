import Mathlib.Logic.Function.Basic
import ConeOS.Library.Word

namespace ConeOS.Memory

open ConeOS.Library Function

def pmmKernelReservePages : Nat := 4*1024*1024/4096

def uint16Max : Nat := 65535

inductive MemmapType
  | usable
  | other
  deriving DecidableEq, Repr

structure MemmapEntry where
  base : Nat
  length : Nat
  type : MemmapType

/-- The static state of pmm.c; pages are numbered by address / 4096. -/
structure Pmm where
  bitmap : Nat → Bool
  pageReferences : Nat → Nat
  bitmapPhysical : Nat
  bitmapPageCount : Nat
  referencesPhysical : Nat
  referencesPageCount : Nat
  pageCount : Nat
  freePages : Nat
  searchStart : Nat
  memoryMap : List MemmapEntry

def pageIsUsable (pmm : Pmm) (physical : Nat) : Bool :=
  pmm.memoryMap.any (fun e => decide (e.type = .usable) && decide (e.base≤physical) &&
    decide ((physical+4096)%2 ^ 64≤(e.base+e.length)%2 ^ 64))

def isMetadata (pmm : Pmm) (physical : Nat) : Bool :=
  decide (pmm.bitmapPhysical≤physical) &&
    decide (physical<pmm.referencesPhysical+pmm.referencesPageCount*4096)

/-- The scan for a clear bit over `count` pages from `page` on. -/
def findClear (bitmap : Nat → Bool) : Nat → Nat → Option Nat
  | _, 0 => none
  | page, count+1 => if bitmap page then findClear bitmap (page+1) count else some page

def takePage (page : Nat) (pmm : Pmm) : Pmm :=
  { pmm with
    bitmap := update pmm.bitmap page true
    pageReferences := update pmm.pageReferences page 1
    freePages := pmm.freePages-1
    searchStart := page+1 }

def allocPageWithReserve (reservePages : Nat) (pmm : Pmm) : Option Nat × Pmm :=
  if pmm.freePages≤reservePages then (none,pmm)
  else
    match findClear pmm.bitmap pmm.searchStart (pmm.pageCount-pmm.searchStart) with
    | some page => (some (page*4096), takePage page pmm)
    | none =>
      match findClear pmm.bitmap 0 pmm.searchStart with
      | some page => (some (page*4096), takePage page pmm)
      | none => (none,pmm)

def pmmAllocPage (pmm : Pmm) : Option Nat × Pmm := allocPageWithReserve 0 pmm

def pmmAllocUserPage (pmm : Pmm) : Option Nat × Pmm :=
  allocPageWithReserve pmmKernelReservePages pmm

def pmmFreePage (physical : Nat) (pmm : Pmm) : Bool × Pmm :=
  if physical%4096≠0 ∨ pageIsUsable pmm physical=false then (false,pmm)
  else if isMetadata pmm physical then (false,pmm)
  else
    let page := physical/4096
    if pmm.bitmap page=false then (false,pmm)
    else if pmm.pageReferences page > 1 then
      (true, { pmm with
        pageReferences :=
          update pmm.pageReferences page (pmm.pageReferences page-1) })
    else
      (true, { pmm with
        pageReferences := update pmm.pageReferences page 0
        bitmap := update pmm.bitmap page false
        freePages := pmm.freePages+1
        searchStart := if page<pmm.searchStart then page else pmm.searchStart })

def addReference (page : Nat) (pmm : Pmm) : Pmm :=
  { pmm with
    pageReferences :=
      update pmm.pageReferences page (pmm.pageReferences page+1) }

def pmmRetainPage (physical : Nat) (pmm : Pmm) : Bool × Pmm :=
  if physical%4096≠0 ∨ pageIsUsable pmm physical=false then (false,pmm)
  else
    let page := physical/4096
    if pmm.bitmap page=false ∨ pmm.pageReferences page=0 ∨
        pmm.pageReferences page=uint16Max then (false,pmm)
    else (true,addReference page pmm)

def pmmPageReferences (physical : Nat) (pmm : Pmm) : Nat :=
  if physical%4096≠0 ∨ pageIsUsable pmm physical=false then 0
  else if pmm.bitmap (physical/4096) then pmm.pageReferences (physical/4096) else 0

/-- The pages the allocator hands out: usable memory outside its own tables, at addresses an
entry can hold. -/
def managed (pmm : Pmm) (page : Nat) : Bool :=
  decide (page<2 ^ 40) && pageIsUsable pmm (page*4096) && !isMetadata pmm (page*4096)

/-- What no call changes. -/
structure SameMap (pmm pmm' : Pmm) : Prop where
  managed : ∀ page, Memory.managed pmm' page=Memory.managed pmm page
  pageCount : pmm'.pageCount=pmm.pageCount

/-- The bitmap marks nothing free outside the pages the allocator owns. -/
structure PmmInv (pmm : Pmm) : Prop where
  clear : ∀ page, pmm.bitmap page=false → managed pmm page=true ∧ page<pmm.pageCount
  bound : ∀ page, managed pmm page=true → page<pmm.pageCount
  search : pmm.searchStart≤pmm.pageCount
  addresses : pmm.pageCount≤2 ^ 40

section Specs

variable {pmm : Pmm} {pmm' : Pmm} {page reserve : Nat}

theorem SameMap.refl (pmm : Pmm) : SameMap pmm pmm := ⟨fun _ => rfl,rfl⟩

theorem SameMap.trans {pmm'' : Pmm} (h : SameMap pmm pmm') (h' : SameMap pmm' pmm'') :
    SameMap pmm pmm'' :=
  ⟨fun page => (h'.managed page).trans (h.managed page),h'.pageCount.trans h.pageCount⟩

theorem findClear_some {bitmap : Nat → Bool} {start count : Nat}
    (h : findClear bitmap start count=some page) :
    bitmap page=false ∧ page<start+count := by
  induction count generalizing start with
  | zero => cases h
  | succ count ih =>
    rw [findClear] at h
    split at h
    · have := ih h
      exact ⟨this.1,by omega⟩
    rename_i hb
    have hp : start=page := Option.some.inj h
    subst hp
    exact ⟨by simpa using hb,by omega⟩

theorem alloc_some {address : Nat}
    (h : allocPageWithReserve reserve pmm=(some address,pmm')) :
    ∃ page, address=page*4096 ∧ pmm.bitmap page=false ∧ pmm'=takePage page pmm := by
  unfold allocPageWithReserve at h
  split at h
  · cases h
  split at h
  next page hp =>
    cases h
    exact ⟨page,rfl,(findClear_some hp).1,rfl⟩
  split at h
  next page hp =>
    cases h
    exact ⟨page,rfl,(findClear_some hp).1,rfl⟩
  · cases h

theorem alloc_none
    (h : allocPageWithReserve reserve pmm=(none,pmm')) : pmm'=pmm := by
  unfold allocPageWithReserve at h
  split at h
  · cases h
    rfl
  split at h
  · cases h
  split at h
  · cases h
  · cases h
    rfl

theorem PmmInv.takePage (inv : PmmInv pmm) (hp : pmm.bitmap page=false) :
    PmmInv (takePage page pmm) ∧ SameMap pmm (Memory.takePage page pmm) := by
  refine ⟨⟨?_,inv.bound,?_,inv.addresses⟩,fun _ => rfl,rfl⟩
  · intro q hq
    by_cases h : q=page
    · subst h
      simp [Memory.takePage] at hq
    · exact inv.clear q (by simpa [Memory.takePage,h] using hq)
  · exact (inv.clear page hp).2

/-- Dropping one reference, and the page with the last one. -/
def dropReference (page : Nat) (pmm : Pmm) : Pmm := (pmmFreePage (page*4096) pmm).2

theorem pmmFreePage_eq (hm : managed pmm page=true)
    (hb : pmm.bitmap page=true) :
    (pmmFreePage (page*4096) pmm).1=true ∧
      (∀ q, q≠page → (dropReference page pmm).bitmap q=pmm.bitmap q ∧
        (dropReference page pmm).pageReferences q=pmm.pageReferences q) ∧
      (dropReference page pmm).pageReferences page=pmm.pageReferences page-1 ∧
      ((dropReference page pmm).bitmap page=true ↔ 1<pmm.pageReferences page) ∧
      SameMap pmm (dropReference page pmm) := by
  have husable : pageIsUsable pmm (page*4096)=true := by
    simp only [managed,Bool.and_eq_true] at hm
    exact hm.1.2
  have hmeta : isMetadata pmm (page*4096)=false := by
    simp only [managed,Bool.and_eq_true,Bool.not_eq_true'] at hm
    exact hm.2
  have halign : page*4096%4096=0 := Nat.mul_mod_left _ _
  have hdiv : page*4096/4096=page := Nat.mul_div_cancel _ (by omega)
  unfold dropReference pmmFreePage
  simp only [halign,husable,hmeta,hdiv,hb]
  by_cases h1 : pmm.pageReferences page > 1
  · simp only [h1]
    refine ⟨by simp,?_,by simp,by simp [hb],fun _ => rfl,rfl⟩
    intro q hq
    simp [hq]
  simp only [h1]
  refine ⟨by simp,?_,by simp; omega,by simp,fun _ => rfl,rfl⟩
  intro q hq
  simp [hq]

theorem PmmInv.dropReference (inv : PmmInv pmm) (hm : managed pmm page=true)
    (hb : pmm.bitmap page=true) : PmmInv (dropReference page pmm) := by
  obtain ⟨-,hother,-,-,hsame⟩ := pmmFreePage_eq hm hb
  have hcount := inv.bound page hm
  refine ⟨?_,?_,?_,?_⟩
  · intro q hq
    rw [hsame.managed,hsame.pageCount]
    by_cases h : q=page
    · subst h
      exact ⟨hm,hcount⟩
    · rw [(hother q h).1] at hq
      exact inv.clear q hq
  · intro q hq
    rw [hsame.managed] at hq
    rw [hsame.pageCount]
    exact inv.bound q hq
  · have hsearch := inv.search
    unfold Memory.dropReference pmmFreePage
    split_ifs <;> first
      | exact hsearch
      | skip
    dsimp only
    split_ifs <;> dsimp only <;> omega
  · rw [hsame.pageCount]
    exact inv.addresses

theorem pmmRetainPage_true
    (h : pmmRetainPage (page*4096) pmm=(true,pmm')) :
    pmm'=addReference page pmm ∧ pmm.bitmap page=true := by
  have hdiv : page*4096/4096=page := Nat.mul_div_cancel _ (by omega)
  unfold pmmRetainPage at h
  rw [hdiv] at h
  dsimp only at h
  split_ifs at h with h1 h2
  · cases h
  · cases h
  · cases h
    rw [not_or] at h2
    exact ⟨rfl,by simpa using h2.1⟩

theorem pmmRetainPage_false {physical : Nat}
    (h : pmmRetainPage physical pmm=(false,pmm')) : pmm'=pmm := by
  unfold pmmRetainPage at h
  dsimp only at h
  split_ifs at h
  · cases h
    rfl
  · cases h
    rfl
  · cases h

theorem pmmPageReferences_eq (hm : managed pmm page=true)
    (hb : pmm.bitmap page=true) :
    pmmPageReferences (page*4096) pmm=pmm.pageReferences page := by
  have husable : pageIsUsable pmm (page*4096)=true := by
    simp only [managed,Bool.and_eq_true] at hm
    exact hm.1.2
  have hdiv : page*4096/4096=page := Nat.mul_div_cancel _ (by omega)
  simp [pmmPageReferences,husable,hdiv,hb]

end Specs

end ConeOS.Memory
