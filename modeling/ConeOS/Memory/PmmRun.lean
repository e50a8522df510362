import ConeOS.Memory.Pmm
import Mathlib.Data.Finset.Card
import Mathlib.Data.Finset.Interval
import Mathlib.Order.Interval.Finset.Nat

namespace ConeOS.Memory

open Function List

section Contiguous

/-- `while (offset < count && !bitmap_test(page + offset)) offset++`. -/
def freeRunLength (bitmap : Nat → Bool) : Nat → Nat → Nat
  | _, 0 => 0
  | page, count+1 => if bitmap page then 0 else freeRunLength bitmap (page+1) count+1

/-- One pass of the search; the page that ended a run is skipped with it. -/
def findRun (bitmap : Nat → Bool) (count stop page : Nat) : Option Nat :=
  if page<stop ∧ count ≤ stop-page then
    if freeRunLength bitmap page count≠count then
      findRun bitmap count stop (page+freeRunLength bitmap page count+1)
    else some page
  else none
termination_by stop-page

def takePages (page count : Nat) (pmm : Pmm) : Pmm :=
  { pmm with
    bitmap := fun q => decide (page≤q ∧ q<page+count) || pmm.bitmap q
    pageReferences := fun q => if page≤q ∧ q<page+count then 1 else pmm.pageReferences q
    freePages := pmm.freePages-count
    searchStart := page+count }

def pmmAllocContiguous (count : Nat) (pmm : Pmm) : Option Nat × Pmm :=
  if count=0 then (none,pmm)
  else if count > pmm.freePages then (none,pmm)
  else
    match findRun pmm.bitmap count pmm.pageCount pmm.searchStart with
    | some page => (some (page*4096), takePages page count pmm)
    | none =>
      match findRun pmm.bitmap count pmm.searchStart 0 with
      | some page => (some (page*4096), takePages page count pmm)
      | none => (none,pmm)

end Contiguous

section Boot

def highestAddress (memoryMap : List MemmapEntry) : Nat :=
  memoryMap.foldl (fun highest entry =>
    if entry.type = .usable ∧ entry.base+entry.length > highest then entry.base+entry.length
    else highest) 0

def alignUp (value alignment : Nat) : Nat := (value+alignment-1)/alignment*alignment

def alignDown (value alignment : Nat) : Nat := value/alignment*alignment

/-- The first usable entry with room for the tables. A difference below zero wraps. -/
def findRegion (pages : Nat) (memoryMap : List MemmapEntry) : Option Nat :=
  (memoryMap.find? (fun entry => decide (entry.type = .usable ∧
    (alignDown (entry.base+entry.length) 4096+2 ^ 64-alignUp entry.base 4096)%2 ^ 64 ≥
      pages*4096))).map (fun entry => alignUp entry.base 4096)

/-- The bitmap and the counter while `pmm_init` fills them. -/
structure PageTally where
  bitmap : Nat → Bool
  freePages : Nat

/-- Clear `count` bits. -/
def releasePages : Nat → Nat → PageTally → PageTally
  | 0, _, t => t
  | count+1, page, t =>
    releasePages count (page+1) ⟨update t.bitmap page false,t.freePages+1⟩

def releaseEntry (t : PageTally) (entry : MemmapEntry) : PageTally :=
  if entry.type = .usable then
    let start := alignUp entry.base 4096/4096
    let stop := alignDown (entry.base+entry.length) 4096/4096
    releasePages (stop-start) start t
  else t

/-- Set the bits of the tables again. -/
def reservePages : Nat → Nat → PageTally → PageTally
  | 0, _, t => t
  | count+1, page, t =>
    reservePages count (page+1)
      (if t.bitmap page then t else ⟨update t.bitmap page true,t.freePages-1⟩)

def pmmInit (memoryMap : List MemmapEntry) : Option Pmm :=
  let pageCount := alignUp (highestAddress memoryMap) 4096/4096
  let bitmapPageCount := alignUp (alignUp pageCount 8/8) 4096/4096
  let referencesPageCount := alignUp (pageCount*2) 4096/4096
  let metadataPageCount := bitmapPageCount+referencesPageCount
  match findRegion metadataPageCount memoryMap with
  | none => none
  | some bitmapPhysical =>
    let released := memoryMap.foldl releaseEntry ⟨fun _ => true,0⟩
    let t := reservePages metadataPageCount (bitmapPhysical/4096) released
    some
      { bitmap := t.bitmap
        pageReferences := fun _ => 0
        bitmapPhysical := bitmapPhysical
        bitmapPageCount := bitmapPageCount
        referencesPhysical := bitmapPhysical+bitmapPageCount*4096
        referencesPageCount := referencesPageCount
        pageCount := pageCount
        freePages := t.freePages
        searchStart := bitmapPhysical/4096+metadataPageCount
        memoryMap := memoryMap }

end Boot

section Invariant

variable {page : Nat}

/-- The pages below `pageCount` whose bit is clear. -/
def clearPages (pmm : Pmm) : Finset Nat :=
  (Finset.range pmm.pageCount).filter (fun page => pmm.bitmap page=false)

/-- Usable memory outside the allocator's own tables. -/
def Owned (pmm : Pmm) (page : Nat) : Prop :=
  page<pmm.pageCount ∧ pageIsUsable pmm (page*4096)=true ∧
    isMetadata pmm (page*4096)=false

/-- What the bitmap, the reference array, the counter and the hint keep between calls. -/
structure PmmCounts (pmm : Pmm) : Prop where
  clear : ∀ page, pmm.bitmap page=false ↔ Owned pmm page ∧ pmm.pageReferences page=0
  counted : pmm.freePages=(clearPages pmm).card
  unowned : ∀ page, ¬ Owned pmm page → pmm.pageReferences page=0
  search : pmm.searchStart≤pmm.pageCount
  usable : ∀ page, pageIsUsable pmm (page*4096)=true → page*4096<2 ^ 52 →
    page<pmm.pageCount

variable {pmm : Pmm}

theorem mem_clearPages :
    page ∈ clearPages pmm ↔ page<pmm.pageCount ∧ pmm.bitmap page=false := by
  rw [clearPages,Finset.mem_filter,Finset.mem_range]

theorem PmmCounts.mem_clear (inv : PmmCounts pmm) :
    page ∈ clearPages pmm ↔ pmm.bitmap page=false := by
  rw [mem_clearPages]
  exact ⟨fun h => h.2,fun h => ⟨((inv.clear page).mp h).1.1,h⟩⟩

/-- Pages that were free are taken together. -/
theorem PmmCounts.takePages (inv : PmmCounts pmm) {count : Nat}
    (hfree : ∀ q, page≤q → q<page+count → pmm.bitmap q=false) (hpos : 0<count) :
    PmmCounts (takePages page count pmm) := by
  have howned : ∀ q, Owned (Memory.takePages page count pmm) q ↔ Owned pmm q := fun _ => Iff.rfl
  have hlast := ((inv.clear (page+count-1)).mp (hfree _ (by omega) (by omega))).1.1
  refine ⟨?_,?_,?_,?_,inv.usable⟩
  · intro q
    rw [howned]
    dsimp only [Memory.takePages]
    by_cases hq : page≤q ∧ q<page+count
    · simp [hq]
    · simp [hq,inv.clear q]
  · have hclear : clearPages (Memory.takePages page count pmm) =
        clearPages pmm \ Finset.Ico page (page+count) := by
      ext q
      rw [Finset.mem_sdiff,mem_clearPages,mem_clearPages,Finset.mem_Ico]
      dsimp only [Memory.takePages]
      by_cases hq : page≤q ∧ q<page+count
      · simp [hq]
      · simp [hq]
    have hsub : Finset.Ico page (page+count) ⊆ clearPages pmm := by
      intro q hq
      rw [Finset.mem_Ico] at hq
      exact inv.mem_clear.mpr (hfree q hq.1 hq.2)
    rw [hclear,Finset.card_sdiff_of_subset hsub,Nat.card_Ico,← inv.counted]
    dsimp only [Memory.takePages]
    omega
  · intro q hq
    rw [howned] at hq
    have hout : ¬ (page≤q ∧ q<page+count) := by
      intro h
      exact hq ((inv.clear q).mp (hfree q h.1 h.2)).1
    dsimp only [Memory.takePages]
    rw [if_neg hout]
    exact inv.unowned q hq
  · dsimp only [Memory.takePages]
    omega

theorem takePage_eq (page : Nat) (pmm : Pmm) : takePage page pmm=takePages page 1 pmm := by
  have hsame : ∀ q, q=page ↔ page≤q ∧ q<page+1 := by
    intro q
    omega
  have hbitmap : update pmm.bitmap page true =
      fun q => decide (page≤q ∧ q<page+1) || pmm.bitmap q := by
    funext q
    by_cases hq : q=page
    · subst hq
      simp
    · rw [update_of_ne hq,decide_eq_false (fun h => hq ((hsame q).mpr h)),Bool.false_or]
  have hreferences : update pmm.pageReferences page 1 =
      fun q => if page≤q ∧ q<page+1 then 1 else pmm.pageReferences q := by
    funext q
    by_cases hq : q=page
    · subst hq
      simp
    · rw [update_of_ne hq,if_neg (fun h => hq ((hsame q).mpr h))]
  rw [takePage,takePages,hbitmap,hreferences]

/-- The count of a page in use changes to another one above zero. -/
theorem PmmCounts.setReferences (inv : PmmCounts pmm) {references : Nat}
    (hused : pmm.bitmap page=true) (howned : Owned pmm page) (hpos : 0<references) :
    PmmCounts { pmm with
      pageReferences := update pmm.pageReferences page references } := by
  refine ⟨?_,inv.counted,?_,inv.search,inv.usable⟩
  · intro q
    show pmm.bitmap q=false ↔ Owned pmm q ∧ update pmm.pageReferences page references q=0
    by_cases hq : q=page
    · subst hq
      rw [update_self,hused]
      constructor
      · intro h
        cases h
      · intro h
        omega
    · rw [update_of_ne hq]
      exact inv.clear q
  · intro q hq
    have hne : q≠page := by
      intro h
      subst h
      exact hq howned
    show update pmm.pageReferences page references q=0
    rw [update_of_ne hne]
    exact inv.unowned q hq

/-- A page in use goes back. -/
theorem PmmCounts.release (inv : PmmCounts pmm) (hused : pmm.bitmap page=true)
    (howned : Owned pmm page) :
    PmmCounts { pmm with
      pageReferences := update pmm.pageReferences page 0
      bitmap := update pmm.bitmap page false
      freePages := pmm.freePages+1
      searchStart := if page<pmm.searchStart then page else pmm.searchStart } := by
  refine ⟨?_,?_,?_,?_,inv.usable⟩
  · intro q
    show update pmm.bitmap page false q=false ↔
      Owned pmm q ∧ update pmm.pageReferences page 0 q=0
    by_cases hq : q=page
    · subst hq
      rw [update_self,update_self]
      exact iff_of_true rfl ⟨howned,rfl⟩
    · rw [update_of_ne hq,update_of_ne hq]
      exact inv.clear q
  · have hnot : page ∉ clearPages pmm := by
      rw [inv.mem_clear,hused]
      simp
    show pmm.freePages+1=_
    rw [inv.counted,← Finset.card_insert_of_notMem hnot]
    congr 1
    ext q
    rw [Finset.mem_insert,mem_clearPages,mem_clearPages]
    show _ ↔ q<pmm.pageCount ∧ update pmm.bitmap page false q=false
    by_cases hq : q=page
    · subst hq
      rw [update_self]
      exact iff_of_true (.inl rfl) ⟨howned.1,rfl⟩
    · rw [update_of_ne hq]
      simp [hq]
  · intro q hq
    show update pmm.pageReferences page 0 q=0
    by_cases hne : q=page
    · rw [hne,update_self]
    · rw [update_of_ne hne]
      exact inv.unowned q hq
  · have := inv.search
    dsimp only
    split_ifs <;> omega

end Invariant

section Search

variable {pmm : Pmm} {bitmap : Nat → Bool} {count stop page : Nat} {q : Nat}

theorem freeRunLength_le (bitmap : Nat → Bool) (page count : Nat) :
    freeRunLength bitmap page count≤count := by
  induction count generalizing page with
  | zero => exact Nat.le_refl _
  | succ count ih =>
    have := ih (page+1)
    rw [freeRunLength]
    split_ifs <;> omega

theorem freeRunLength_clear (hle : page≤q)
    (hlt : q<page+freeRunLength bitmap page count) : bitmap q=false := by
  induction count generalizing page with
  | zero =>
    rw [freeRunLength] at hlt
    omega
  | succ count ih =>
    rw [freeRunLength] at hlt
    by_cases hbit : bitmap page=true
    · rw [if_pos hbit] at hlt
      omega
    rw [if_neg hbit] at hlt
    by_cases hq : q=page
    · rw [hq]
      exact Bool.eq_false_of_not_eq_true hbit
    · have hnext : page+1≤q := by omega
      exact ih hnext (by omega)

theorem freeRunLength_stopped (h : freeRunLength bitmap page count≠count) :
    bitmap (page+freeRunLength bitmap page count)=true := by
  induction count generalizing page with
  | zero => exact absurd rfl h
  | succ count ih =>
    rw [freeRunLength] at h ⊢
    by_cases hbit : bitmap page=true
    · rw [if_pos hbit,Nat.add_zero]
      exact hbit
    · rw [if_neg hbit] at h ⊢
      rw [Nat.add_comm _ 1,← Nat.add_assoc]
      exact ih (by omega)

/-- `count` free pages from `page` on. -/
def FreeRun (bitmap : Nat → Bool) (count page : Nat) : Prop :=
  ∀ q, page≤q → q<page+count → bitmap q=false

theorem findRun_some {found : Nat} (h : findRun bitmap count stop page=some found) :
    FreeRun bitmap count found ∧ page≤found ∧ found+count ≤ stop := by
  fun_induction findRun bitmap count stop page with
  | case1 page hroom hshort ih =>
    have := ih h
    exact ⟨this.1,by omega,this.2.2⟩
  | case2 page hroom hfull =>
    have hfound : page=found := Option.some.inj h
    subst hfound
    rw [not_not] at hfull
    refine ⟨fun q hle hlt => ?_,Nat.le_refl _,by omega⟩
    rw [← hfull] at hlt
    exact freeRunLength_clear hle hlt
  | case3 page hroom => cases h

theorem findRun_none (hpos : 0<count) (h : findRun bitmap count stop page=none)
    (hle : page≤q) (hroom : q+count ≤ stop) : ¬ FreeRun bitmap count q := by
  fun_induction findRun bitmap count stop page with
  | case1 page hpage hshort ih =>
    by_cases hskip : page+freeRunLength bitmap page count+1≤q
    · exact ih h hskip
    intro hrun
    have hbit := freeRunLength_stopped hshort
    have hlen := freeRunLength_le bitmap page count
    rw [hrun _ (by omega) (by omega)] at hbit
    cases hbit
  | case2 page hpage hfull => cases h
  | case3 page hpage => omega

theorem findClear_none {start : Nat} (h : findClear bitmap start count=none)
    (hle : start≤q) (hlt : q<start+count) : bitmap q=true := by
  induction count generalizing start with
  | zero => omega
  | succ count ih =>
    rw [findClear] at h
    by_cases hbit : bitmap start=true
    · rw [if_pos hbit] at h
      by_cases hq : q=start
      · rw [hq]
        exact hbit
      · exact ih h (by omega) (by omega)
    · rw [if_neg hbit] at h
      cases h

/-- A single page is refused only at the reserve. -/
theorem PmmCounts.alloc_none_iff (inv : PmmCounts pmm) (reserve : Nat) :
    (allocPageWithReserve reserve pmm).1=none ↔ pmm.freePages≤reserve := by
  rw [allocPageWithReserve]
  by_cases hreserve : pmm.freePages≤reserve
  · rw [if_pos hreserve]
    exact iff_of_true rfl hreserve
  rw [if_neg hreserve]
  cases hfirst : findClear pmm.bitmap pmm.searchStart (pmm.pageCount-pmm.searchStart) with
  | some page => exact iff_of_false (by simp) hreserve
  | none =>
    cases hsecond : findClear pmm.bitmap 0 pmm.searchStart with
    | some page => exact iff_of_false (by simp) hreserve
    | none =>
      have hempty : clearPages pmm = ∅ := by
        rw [Finset.eq_empty_iff_forall_notMem]
        intro q hq
        obtain ⟨hlt,hbit⟩ := mem_clearPages.mp hq
        have hset : pmm.bitmap q=true := by
          by_cases hside : q<pmm.searchStart
          · exact findClear_none hsecond (Nat.zero_le _) (by omega)
          · exact findClear_none hfirst (by omega) (by omega)
        rw [hbit] at hset
        cases hset
      have hzero : pmm.freePages=0 := by
        rw [inv.counted,hempty,Finset.card_empty]
      omega

/-- Everything a contiguous allocation can do. -/
inductive ContiguousEffect (count : Nat) (pmm : Pmm) : Option Nat × Pmm → Prop
  | refused (hpasses : count=0 ∨ pmm.freePages<count ∨
      (∀ page, pmm.searchStart≤page → page+count≤pmm.pageCount →
        ¬ FreeRun pmm.bitmap count page) ∧
      (∀ page, page+count≤pmm.searchStart → ¬ FreeRun pmm.bitmap count page)) :
      ContiguousEffect count pmm (none,pmm)
  | taken {page : Nat} (hpos : 0<count) (hrun : FreeRun pmm.bitmap count page)
      (hside : page+count≤pmm.searchStart ∨ pmm.searchStart≤page) :
      ContiguousEffect count pmm (some (page*4096), takePages page count pmm)

theorem pmmAllocContiguous_effect (count : Nat) (pmm : Pmm) :
    ContiguousEffect count pmm (pmmAllocContiguous count pmm) := by
  rw [pmmAllocContiguous]
  by_cases hzero : count=0
  · rw [if_pos hzero]
    exact .refused (.inl hzero)
  rw [if_neg hzero]
  by_cases hmany : count > pmm.freePages
  · rw [if_pos hmany]
    exact .refused (.inr (.inl hmany))
  rw [if_neg hmany]
  have hpos : 0<count := Nat.pos_of_ne_zero hzero
  cases hfirst : findRun pmm.bitmap count pmm.pageCount pmm.searchStart with
  | some page =>
    obtain ⟨hrun,hle,-⟩ := findRun_some hfirst
    exact .taken hpos hrun (.inr hle)
  | none =>
    cases hsecond : findRun pmm.bitmap count pmm.searchStart 0 with
    | some page =>
      obtain ⟨hrun,-,hroom⟩ := findRun_some hsecond
      exact .taken hpos hrun (.inl hroom)
    | none =>
      refine .refused (.inr (.inr ⟨?_,?_⟩))
      · intro page hle hroom
        exact findRun_none hpos hfirst hle hroom
      · intro page hroom
        exact findRun_none hpos hsecond (Nat.zero_le _) hroom

theorem PmmCounts.run_le (inv : PmmCounts pmm) (hrun : FreeRun pmm.bitmap count page) :
    count≤pmm.freePages := by
  have hsub : Finset.Ico page (page+count) ⊆ clearPages pmm := by
    intro q hq
    rw [Finset.mem_Ico] at hq
    exact inv.mem_clear.mpr (hrun q hq.1 hq.2)
  have hcard := Finset.card_le_card hsub
  rw [Nat.card_Ico,← inv.counted] at hcard
  omega

end Search

section Calls

variable {physical : Nat}

inductive PmmCall
  | allocPage
  | allocUserPage
  | allocContiguous (count : Nat)
  | freePage (physical : Nat)
  | retainPage (physical : Nat)

inductive PmmAnswer
  | address (physical : Option Nat)
  | status (ok : Bool)

def PmmCall.run (pmm : Pmm) : PmmCall → PmmAnswer × Pmm
  | .allocPage => (.address (pmmAllocPage pmm).1, (pmmAllocPage pmm).2)
  | .allocUserPage => (.address (pmmAllocUserPage pmm).1, (pmmAllocUserPage pmm).2)
  | .allocContiguous count =>
    (.address (pmmAllocContiguous count pmm).1, (pmmAllocContiguous count pmm).2)
  | .freePage physical => (.status (pmmFreePage physical pmm).1, (pmmFreePage physical pmm).2)
  | .retainPage physical =>
    (.status (pmmRetainPage physical pmm).1, (pmmRetainPage physical pmm).2)

/-- The addresses page-table entries can hold. -/
def PmmCall.InBounds : PmmCall → Prop
  | .freePage physical => physical<2 ^ 52
  | .retainPage physical => physical<2 ^ 52
  | _ => True

def runPmm (calls : List PmmCall) (pmm : Pmm) : Pmm :=
  calls.foldl (fun pmm call => (call.run pmm).2) pmm

variable {pmm : Pmm}

theorem PmmCounts.alloc (inv : PmmCounts pmm) (reserve : Nat) :
    PmmCounts (allocPageWithReserve reserve pmm).2 := by
  cases h : allocPageWithReserve reserve pmm with
  | mk address pmm' =>
    cases address with
    | none =>
      rw [alloc_none h]
      exact inv
    | some address =>
      obtain ⟨page,-,hbit,rfl⟩ := alloc_some h
      rw [takePage_eq]
      refine inv.takePages (fun q hle hlt => ?_) Nat.one_pos
      have hq : q=page := by omega
      rw [hq]
      exact hbit

theorem PmmCounts.allocContiguous (inv : PmmCounts pmm) (count : Nat) :
    PmmCounts (pmmAllocContiguous count pmm).2 := by
  have heffect := pmmAllocContiguous_effect count pmm
  generalize pmmAllocContiguous count pmm=r at heffect
  cases heffect with
  | refused => exact inv
  | taken hpos hrun _ => exact inv.takePages hrun hpos

theorem PmmCounts.owned (inv : PmmCounts pmm) (hbound : physical<2 ^ 52)
    (halign : ¬ (physical%4096≠0 ∨ pageIsUsable pmm physical=false))
    (hmeta : isMetadata pmm physical=false) : Owned pmm (physical/4096) := by
  rw [not_or,not_not,Bool.not_eq_false] at halign
  have hphysical : physical/4096*4096=physical := by omega
  refine ⟨?_,?_,?_⟩
  · apply inv.usable
    · rw [hphysical]
      exact halign.2
    · omega
  · rw [hphysical]
    exact halign.2
  · rw [hphysical]
    exact hmeta

theorem PmmCounts.freePage (inv : PmmCounts pmm) (hbound : physical<2 ^ 52) :
    PmmCounts (pmmFreePage physical pmm).2 := by
  rw [pmmFreePage]
  by_cases halign : physical%4096≠0 ∨ pageIsUsable pmm physical=false
  · rw [if_pos halign]
    exact inv
  rw [if_neg halign]
  by_cases hmeta : isMetadata pmm physical=true
  · rw [if_pos hmeta]
    exact inv
  rw [if_neg hmeta]
  have howned := inv.owned hbound halign (Bool.eq_false_of_not_eq_true hmeta)
  dsimp only
  by_cases hbit : pmm.bitmap (physical/4096)=false
  · rw [if_pos hbit]
    exact inv
  rw [if_neg hbit]
  rw [Bool.not_eq_false] at hbit
  by_cases hmany : pmm.pageReferences (physical/4096) > 1
  · rw [if_pos hmany]
    exact inv.setReferences hbit howned (by omega)
  · rw [if_neg hmany]
    exact inv.release hbit howned

theorem PmmCounts.retainPage (inv : PmmCounts pmm) :
    PmmCounts (pmmRetainPage physical pmm).2 := by
  rw [pmmRetainPage]
  by_cases halign : physical%4096≠0 ∨ pageIsUsable pmm physical=false
  · rw [if_pos halign]
    exact inv
  rw [if_neg halign]
  dsimp only
  by_cases hrefused : pmm.bitmap (physical/4096)=false ∨
      pmm.pageReferences (physical/4096)=0 ∨
      pmm.pageReferences (physical/4096)=uint16Max
  · rw [if_pos hrefused]
    exact inv
  rw [if_neg hrefused]
  rw [not_or,not_or,Bool.not_eq_false] at hrefused
  have howned : Owned pmm (physical/4096) := by
    by_contra hnot
    exact hrefused.2.1 (inv.unowned _ hnot)
  exact inv.setReferences hrefused.1 howned (Nat.succ_pos _)

theorem PmmCounts.call (inv : PmmCounts pmm) {call : PmmCall} (hbound : call.InBounds) :
    PmmCounts (call.run pmm).2 := by
  cases call with
  | allocPage => exact inv.alloc 0
  | allocUserPage => exact inv.alloc pmmKernelReservePages
  | allocContiguous count => exact inv.allocContiguous count
  | freePage physical => exact inv.freePage hbound
  | retainPage physical => exact inv.retainPage

theorem PmmCounts.run (inv : PmmCounts pmm) {calls : List PmmCall}
    (hbound : ∀ call ∈ calls, call.InBounds) : PmmCounts (runPmm calls pmm) := by
  induction calls generalizing pmm with
  | nil => exact inv
  | cons call calls ih =>
    exact ih (inv.call (hbound call mem_cons_self))
      (fun c hc => hbound c (mem_cons_of_mem call hc))

end Calls

section Establishing

variable {t : PageTally} {memoryMap : List MemmapEntry} {pmm : Pmm}

/-- The memory maps Limine hands over. `bounded` leaves out the usable ranges that reach the last
byte of the 64-bit space: their end wraps to 0. -/
structure WellFormedMap (memoryMap : List MemmapEntry) : Prop where
  aligned : ∀ e ∈ memoryMap, e.type = .usable → e.base%4096=0 ∧ e.length%4096=0
  bounded : ∀ e ∈ memoryMap, e.type = .usable → e.base+e.length<2 ^ 64
  disjoint : memoryMap.Pairwise (fun e f => e.type = .usable → f.type = .usable →
    ∀ address, e.base≤address → address<e.base+e.length →
      ¬ (f.base≤address ∧ address<f.base+f.length))

/-- The pages of a usable entry. -/
def entryPages (e : MemmapEntry) : Finset Nat :=
  if e.type = .usable then Finset.Ico (e.base/4096) ((e.base+e.length)/4096) else ∅

/-- The bits that are clear while the bitmap is filled, and their number. -/
structure Tallied (t : PageTally) (pages : Finset Nat) : Prop where
  clear : ∀ page, t.bitmap page=false ↔ page ∈ pages
  counted : t.freePages=pages.card

theorem releasePages_bitmap (count page : Nat) (t : PageTally) (q : Nat) :
    (releasePages count page t).bitmap q =
      if page≤q ∧ q<page+count then false else t.bitmap q := by
  induction count generalizing page t with
  | zero => rw [releasePages,if_neg (by omega)]
  | succ count ih =>
    rw [releasePages,ih]
    by_cases hq : q=page
    · rw [if_neg (by omega),if_pos (by omega),hq]
      exact update_self ..
    · have hsame : (page+1≤q ∧ q<page+1+count) ↔ (page≤q ∧ q<page+(count+1)) := by
        omega
      simp only [hsame,update_of_ne hq]

theorem releasePages_freePages (count page : Nat) (t : PageTally) :
    (releasePages count page t).freePages=t.freePages+count := by
  induction count generalizing page t with
  | zero => rfl
  | succ count ih =>
    rw [releasePages,ih]
    dsimp only
    omega

theorem Tallied.releaseEntry {pages : Finset Nat} (h : Tallied t pages)
    {e : MemmapEntry} (haligned : e.type = .usable → e.base%4096=0 ∧ e.length%4096=0)
    (hdisjoint : Disjoint pages (entryPages e)) :
    Tallied (releaseEntry t e) (pages ∪ entryPages e) := by
  by_cases htype : e.type = .usable
  · obtain ⟨hbase,hlength⟩ := haligned htype
    have hstart : alignUp e.base 4096/4096=e.base/4096 := by
      rw [alignUp]
      omega
    have hstop : alignDown (e.base+e.length) 4096/4096=(e.base+e.length)/4096 := by
      rw [alignDown]
      omega
    have hpages : entryPages e=Finset.Ico (e.base/4096) ((e.base+e.length)/4096) :=
      if_pos htype
    have hle : e.base/4096≤(e.base+e.length)/4096 := Nat.div_le_div_right (by omega)
    rw [Memory.releaseEntry,if_pos htype]
    dsimp only
    rw [hstart,hstop]
    refine ⟨fun q => ?_,?_⟩
    · rw [releasePages_bitmap,Nat.add_sub_cancel' hle,Finset.mem_union,hpages,Finset.mem_Ico,
        ← h.clear]
      by_cases hq : e.base/4096≤q ∧ q<(e.base+e.length)/4096
      · simp [hq]
      · simp [hq]
    · rw [releasePages_freePages,h.counted,Finset.card_union_of_disjoint hdisjoint,hpages,
        Nat.card_Ico]
  · have hpages : entryPages e = ∅ := if_neg htype
    rw [Memory.releaseEntry,if_neg htype,hpages,Finset.union_empty]
    exact h

theorem Tallied.releaseAll (hmap : WellFormedMap memoryMap) {pages : Finset Nat}
    (h : Tallied t pages)
    (hdisjoint : ∀ e ∈ memoryMap, Disjoint pages (entryPages e)) :
    ∃ pages', Tallied (memoryMap.foldl Memory.releaseEntry t) pages' ∧
      ∀ q, q ∈ pages' ↔ q ∈ pages ∨ ∃ e ∈ memoryMap, q ∈ entryPages e := by
  induction memoryMap generalizing t pages with
  | nil => exact ⟨pages,h,by simp⟩
  | cons e rest ih =>
    obtain ⟨hfirst,hrest⟩ := pairwise_cons.mp hmap.disjoint
    have hmap' : WellFormedMap rest :=
      ⟨fun f hf => hmap.aligned f (mem_cons_of_mem e hf),
        fun f hf => hmap.bounded f (mem_cons_of_mem e hf),hrest⟩
    have hstep := h.releaseEntry (hmap.aligned e mem_cons_self)
      (hdisjoint e mem_cons_self)
    have hdisjoint' : ∀ f ∈ rest, Disjoint (pages ∪ entryPages e) (entryPages f) := by
      intro f hf
      rw [Finset.disjoint_union_left]
      refine ⟨hdisjoint f (mem_cons_of_mem e hf),?_⟩
      rw [Finset.disjoint_left]
      intro q hqe hqf
      rw [entryPages] at hqe hqf
      split_ifs at hqe hqf with he hf'
      · rw [Finset.mem_Ico] at hqe hqf
        have := hmap.aligned e mem_cons_self he
        have := hmap.aligned f (mem_cons_of_mem e hf) hf'
        exact hfirst f hf he hf' (q*4096) (by omega) (by omega) ⟨by omega,by omega⟩
      all_goals exact absurd ‹_› (Finset.notMem_empty q)
    obtain ⟨pages',htallied,hmem⟩ := ih hmap' hstep hdisjoint'
    refine ⟨pages',htallied,fun q => ?_⟩
    rw [hmem,Finset.mem_union,exists_mem_cons_iff]
    tauto

theorem Tallied.reservePages {pages : Finset Nat} (h : Tallied t pages)
    (count page : Nat) :
    Tallied (reservePages count page t) (pages \ Finset.Ico page (page+count)) := by
  induction count generalizing page t pages with
  | zero =>
    rw [Memory.reservePages,Nat.add_zero,Finset.Ico_self,Finset.sdiff_empty]
    exact h
  | succ count ih =>
    have hstep : Tallied
        (if t.bitmap page then t else ⟨update t.bitmap page true,t.freePages-1⟩)
        (pages.erase page) := by
      split_ifs with hbit
      · have hnot : page ∉ pages := by
          rw [← h.clear,hbit]
          simp
        rw [Finset.erase_eq_of_notMem hnot]
        exact h
      have hmem : page ∈ pages := (h.clear page).mp (Bool.eq_false_of_not_eq_true hbit)
      refine ⟨fun q => ?_,?_⟩
      · rw [Finset.mem_erase,← h.clear]
        by_cases hq : q=page
        · subst hq
          simp
        · simp [hq]
      · rw [Finset.card_erase_of_mem hmem,h.counted]
    have hsplit : pages \ Finset.Ico page (page+(count+1)) =
        pages.erase page \ Finset.Ico (page+1) (page+1+count) := by
      ext q
      simp only [Finset.mem_sdiff,Finset.mem_erase,Finset.mem_Ico]
      constructor
      · intro hq
        exact ⟨⟨by omega,hq.1⟩,by omega⟩
      · intro hq
        exact ⟨hq.1.2,by omega⟩
    rw [Memory.reservePages,hsplit]
    exact ih hstep (page+1)

theorem highestAddress_spec (hmap : WellFormedMap memoryMap) :
    (∀ e ∈ memoryMap, e.type = .usable → e.base+e.length≤highestAddress memoryMap) ∧
    highestAddress memoryMap%4096=0 ∧ highestAddress memoryMap<2 ^ 64 := by
  have hfrom (entries : List MemmapEntry) (hsub : ∀ e ∈ entries, e ∈ memoryMap) (highest : Nat)
      (haligned : highest%4096=0) (hbound : highest<2 ^ 64) :
      let r := entries.foldl (fun highest entry =>
        if entry.type = .usable ∧ entry.base+entry.length > highest then
          entry.base+entry.length
        else highest) highest
      highest≤r ∧ (∀ e ∈ entries, e.type = .usable → e.base+e.length≤r) ∧ r%4096=0 ∧
        r<2 ^ 64 := by
    induction entries generalizing highest with
    | nil => exact ⟨Nat.le_refl _,by simp,haligned,hbound⟩
    | cons e rest ih =>
      have hmem := hsub e mem_cons_self
      have hsub' : ∀ f ∈ rest, f ∈ memoryMap := fun f hf => hsub f (mem_cons_of_mem e hf)
      rw [foldl_cons]
      by_cases htake : e.type = .usable ∧ e.base+e.length > highest
      · have hal := hmap.aligned e hmem htake.1
        have hbd := hmap.bounded e hmem htake.1
        rw [if_pos htake]
        obtain ⟨hle,hall,hrest⟩ := ih hsub' (e.base+e.length) (by omega) hbd
        refine ⟨by omega,fun f hf hu => ?_,hrest⟩
        obtain rfl | hf := mem_cons.mp hf
        · exact hle
        · exact hall f hf hu
      · rw [if_neg htake]
        obtain ⟨hle,hall,hrest⟩ := ih hsub' highest haligned hbound
        refine ⟨hle,fun f hf hu => ?_,hrest⟩
        obtain rfl | hf := mem_cons.mp hf
        · have : ¬ f.base+f.length > highest := fun hgt => htake ⟨hu,hgt⟩
          omega
        · exact hall f hf hu
  obtain ⟨-,hall,haligned,hbound⟩ := hfrom memoryMap (fun _ h => h) 0 rfl (by decide)
  exact ⟨hall,haligned,hbound⟩

theorem pageIsUsable_iff (hmap : WellFormedMap pmm.memoryMap) {page : Nat}
    (hbound : page*4096+4096<2 ^ 64) :
    pageIsUsable pmm (page*4096)=true ↔ ∃ e ∈ pmm.memoryMap, page ∈ entryPages e := by
  rw [pageIsUsable,any_eq_true]
  refine exists_congr fun e => and_congr_right fun he => ?_
  rw [entryPages]
  by_cases htype : e.type = .usable
  · have hal := hmap.aligned e he htype
    have hbd := hmap.bounded e he htype
    rw [if_pos htype,Finset.mem_Ico,Nat.mod_eq_of_lt hbound,Nat.mod_eq_of_lt hbd]
    simp only [htype,decide_true,Bool.true_and,Bool.and_eq_true,decide_eq_true_eq]
    omega
  · rw [if_neg htype]
    simp [htype]

theorem findRegion_some (hmap : WellFormedMap memoryMap)
    {pages start : Nat} (h : findRegion pages memoryMap=some start) :
    start%4096=0 ∧ start/4096+pages≤highestAddress memoryMap/4096 := by
  rw [findRegion,Option.map_eq_some_iff] at h
  obtain ⟨e,he,hstart⟩ := h
  have htest := List.find?_some he
  simp only [decide_eq_true_eq] at htest
  obtain ⟨htype,hroom⟩ := htest
  have hmem := mem_of_find?_eq_some he
  obtain ⟨hbase,hlength⟩ := hmap.aligned e hmem htype
  have hbd := hmap.bounded e hmem htype
  have htop := (highestAddress_spec hmap).1 e hmem htype
  have hup : alignUp e.base 4096=e.base := by
    rw [alignUp]
    omega
  have hdown : alignDown (e.base+e.length) 4096=e.base+e.length := by
    rw [alignDown]
    omega
  rw [hup,hdown] at hroom
  rw [hup] at hstart
  subst hstart
  omega

/-- `pmm_init` establishes the invariant. -/
theorem pmmInit_counts (hmap : WellFormedMap memoryMap)
    (h : pmmInit memoryMap=some pmm) : PmmCounts pmm := by
  rw [pmmInit] at h
  dsimp only at h
  generalize hbits : alignUp (alignUp (alignUp (highestAddress memoryMap) 4096/4096) 8/8) 4096 /
    4096=bitmapPageCount at h
  generalize hrefs : alignUp (alignUp (highestAddress memoryMap) 4096/4096*2) 4096/4096 =
    referencesPageCount at h
  obtain ⟨hends,halign,hlimit⟩ := highestAddress_spec hmap
  have hcount : alignUp (highestAddress memoryMap) 4096/4096=highestAddress memoryMap/4096 := by
    rw [alignUp]
    omega
  rw [hcount] at h
  cases hregion : findRegion (bitmapPageCount+referencesPageCount) memoryMap with
  | none =>
    rw [hregion] at h
    cases h
  | some start =>
    obtain ⟨hstart,hroom⟩ := findRegion_some hmap hregion
    rw [hregion] at h
    cases h
    obtain ⟨pages,hreleased,hmem⟩ := Tallied.releaseAll hmap
      (⟨fun q => by simp,rfl⟩ : Tallied ⟨fun _ => true,0⟩ ∅) (fun e _ => Finset.disjoint_empty_left _)
    have htallied := hreleased.reservePages (bitmapPageCount+referencesPageCount) (start/4096)
    have hbelow : ∀ q, (∃ e ∈ memoryMap, q ∈ entryPages e) → q<highestAddress memoryMap/4096 := by
      intro q hq
      obtain ⟨e,he,hq⟩ := hq
      rw [entryPages] at hq
      split_ifs at hq with htype
      · rw [Finset.mem_Ico] at hq
        have := hends e he htype
        omega
      · exact absurd hq (Finset.notMem_empty q)
    have hmeta : ∀ q, (start≤q*4096 ∧ q*4096 <
        start+bitmapPageCount*4096+referencesPageCount*4096) ↔
        q ∈ Finset.Ico (start/4096)
          (start/4096+(bitmapPageCount+referencesPageCount)) := by
      intro q
      rw [Finset.mem_Ico]
      omega
    refine ⟨fun q => ?_,?_,fun _ _ => rfl,hroom,fun q husable hq => ?_⟩
    · rw [htallied.clear,Finset.mem_sdiff,hmem,Owned,isMetadata]
      simp only [Finset.notMem_empty,false_or,and_true]
      rw [← Bool.decide_and,decide_eq_false_iff_not,hmeta]
      constructor
      · intro hq
        have hlt := hbelow q hq.1
        exact ⟨hlt,(pageIsUsable_iff hmap (by omega)).mpr hq.1,hq.2⟩
      · intro hq
        exact ⟨(pageIsUsable_iff hmap (by omega)).mp hq.2.1,hq.2.2⟩
    · rw [htallied.counted]
      refine congrArg Finset.card (Finset.ext fun q => ?_)
      rw [mem_clearPages]
      constructor
      · intro hq
        refine ⟨hbelow q ?_,(htallied.clear q).mpr hq⟩
        rw [Finset.mem_sdiff,hmem] at hq
        exact hq.1.resolve_left (Finset.notMem_empty q)
      · intro hq
        exact (htallied.clear q).mp hq.2
    · have hsmall : q*4096+4096<2 ^ 64 :=
        Nat.lt_of_lt_of_le (Nat.add_lt_add_right hq 4096) (by decide)
      exact hbelow q ((pageIsUsable_iff hmap hsmall).mp husable)

end Establishing

section Results

variable {pmm : Pmm}

/-- No call changes which pages the allocator owns. -/
theorem owned_call (call : PmmCall) (pmm : Pmm) (page : Nat) :
    Owned (call.run pmm).2 page ↔ Owned pmm page := by
  have halloc : ∀ reserve, Owned (allocPageWithReserve reserve pmm).2 page ↔ Owned pmm page := by
    intro reserve
    cases h : allocPageWithReserve reserve pmm with
    | mk address pmm' =>
      cases address with
      | none => rw [alloc_none h]
      | some address =>
        obtain ⟨q,-,-,rfl⟩ := alloc_some h
        exact Iff.rfl
  cases call with
  | allocPage => exact halloc 0
  | allocUserPage => exact halloc pmmKernelReservePages
  | allocContiguous count =>
    rw [PmmCall.run]
    have heffect := pmmAllocContiguous_effect count pmm
    generalize pmmAllocContiguous count pmm=r at heffect
    cases heffect with
    | refused => exact Iff.rfl
    | taken => exact Iff.rfl
  | freePage physical =>
    rw [PmmCall.run,pmmFreePage]
    split_ifs
    · exact Iff.rfl
    · exact Iff.rfl
    · dsimp only
      split_ifs <;> exact Iff.rfl
  | retainPage physical =>
    rw [PmmCall.run,pmmRetainPage]
    split_ifs
    · exact Iff.rfl
    · dsimp only
      split_ifs <;> exact Iff.rfl

theorem owned_run (calls : List PmmCall) (pmm : Pmm) (page : Nat) :
    Owned (runPmm calls pmm) page ↔ Owned pmm page := by
  induction calls generalizing pmm with
  | nil => exact Iff.rfl
  | cons call calls ih =>
    rw [runPmm,foldl_cons]
    exact (ih _).trans (owned_call call pmm page)

theorem PmmCounts.unowned_same (inv : PmmCounts pmm) {pmm' : Pmm} (inv' : PmmCounts pmm')
    {page : Nat} (h : ¬ Owned pmm page) (h' : ¬ Owned pmm' page) :
    pmm'.bitmap page=pmm.bitmap page ∧ pmm'.pageReferences page=pmm.pageReferences page := by
  have hset : ∀ {p : Pmm}, PmmCounts p → ¬ Owned p page → p.bitmap page=true := by
    intro p hp hno
    by_contra hbit
    exact hno ((hp.clear page).mp (Bool.eq_false_of_not_eq_true hbit)).1
  rw [hset inv h,hset inv' h',inv.unowned page h,inv'.unowned page h']
  exact ⟨rfl,rfl⟩

/-- How many pages a call asks for. -/
def PmmCall.pages : PmmCall → Nat
  | .allocContiguous count => count
  | _ => 1

theorem address_was_free {call : PmmCall} {physical : Nat}
    (h : (call.run pmm).1 = .address (some physical)) :
    ∃ page, physical=page*4096 ∧ FreeRun pmm.bitmap call.pages page := by
  have halloc : ∀ reserve, (allocPageWithReserve reserve pmm).1=some physical →
      ∃ page, physical=page*4096 ∧ FreeRun pmm.bitmap 1 page := by
    intro reserve hsome
    obtain ⟨page,rfl,hbit,-⟩ := alloc_some (Prod.ext hsome rfl)
    refine ⟨page,rfl,fun q hle hlt => ?_⟩
    have hq : q=page := by omega
    rw [hq]
    exact hbit
  cases call with
  | allocPage => exact halloc 0 (PmmAnswer.address.inj h)
  | allocUserPage => exact halloc pmmKernelReservePages (PmmAnswer.address.inj h)
  | allocContiguous count =>
    rw [PmmCall.run] at h
    have heffect := pmmAllocContiguous_effect count pmm
    generalize pmmAllocContiguous count pmm=r at heffect h
    cases heffect with
    | refused => cases h
    | @taken page hpos hrun hside =>
      exact ⟨page,(Option.some.inj (PmmAnswer.address.inj h)).symm,hrun⟩
  | freePage physical => cases h
  | retainPage physical => cases h

/-- From `pmm_init` on, the bitmap, the references and the counter agree, and every call keeps
what it promises. -/
theorem pmm_keeps_its_books (memoryMap : List MemmapEntry) (hmap : WellFormedMap memoryMap)
    (pmm : Pmm) (hinit : pmmInit memoryMap=some pmm) (calls : List PmmCall)
    (hbound : ∀ call ∈ calls, call.InBounds) :
    let s := runPmm calls pmm
    s.freePages=(clearPages s).card ∧
    (∀ page, s.bitmap page=false ↔ Owned pmm page ∧ s.pageReferences page=0) ∧
    (∀ call : PmmCall, call.InBounds → ∀ page, ¬ Owned pmm page →
      (call.run s).2.bitmap page=s.bitmap page ∧
      (call.run s).2.pageReferences page=s.pageReferences page) ∧
    (∀ (call : PmmCall) (physical : Nat), (call.run s).1 = .address (some physical) →
      ∃ page, physical=page*4096 ∧ FreeRun s.bitmap call.pages page) ∧
    ((pmmAllocPage s).1=none → ∀ page, s.bitmap page=true) ∧
    ((pmmAllocUserPage s).1≠none → pmmKernelReservePages≤(pmmAllocUserPage s).2.freePages) := by
  intro s
  have inv : PmmCounts s := (pmmInit_counts hmap hinit).run hbound
  refine ⟨inv.counted,?_,?_,fun call physical => address_was_free,?_,?_⟩
  · intro page
    rw [inv.clear,owned_run]
  · intro call hcall page hno
    have hno' : ¬ Owned s page := fun h => hno ((owned_run calls pmm page).mp h)
    exact inv.unowned_same (inv.call hcall) hno'
      (fun h => hno' ((owned_call call s page).mp h))
  · intro hnone page
    have hzero := (inv.alloc_none_iff 0).mp hnone
    by_contra hbit
    have hmem := inv.mem_clear.mpr (Bool.eq_false_of_not_eq_true hbit)
    have hpos := Finset.card_pos.mpr ⟨page,hmem⟩
    rw [← inv.counted] at hpos
    omega
  intro hsome
  have hmany : ¬ s.freePages≤pmmKernelReservePages :=
    fun h => hsome ((inv.alloc_none_iff _).mpr h)
  obtain ⟨address,haddress⟩ := Option.ne_none_iff_exists'.mp hsome
  obtain ⟨page,-,-,htaken⟩ := alloc_some (Prod.ext haddress rfl)
  have hleft : pmmKernelReservePages≤(takePage page s).freePages := by
    dsimp only [takePage]
    omega
  exact hleft.trans_eq (congrArg Pmm.freePages htaken).symm

/-- If there is a run of `count` free pages, one lies on one side of the hint. -/
def OneSided (pmm : Pmm) (count : Nat) : Prop :=
  (∃ page, FreeRun pmm.bitmap count page) → ∃ page, FreeRun pmm.bitmap count page ∧
    (page+count≤pmm.searchStart ∨ pmm.searchStart≤page)

/-- The pages are taken with one reference each, and nothing else changes. -/
structure RunTaken (pmm pmm' : Pmm) (page count : Nat) : Prop where
  bitmap : ∀ q, pmm'.bitmap q=(decide (page≤q ∧ q<page+count) || pmm.bitmap q)
  references : ∀ q, pmm'.pageReferences q =
    if page≤q ∧ q<page+count then 1 else pmm.pageReferences q
  freePages : pmm'.freePages+count=pmm.freePages

/-- Contiguous allocation finds a run whenever there is one, except exactly where every run
crosses the hint. -/
theorem contiguous_allocation_complete (memoryMap : List MemmapEntry)
    (hmap : WellFormedMap memoryMap) (pmm : Pmm) (hinit : pmmInit memoryMap=some pmm)
    (calls : List PmmCall) (hbound : ∀ call ∈ calls, call.InBounds) (count : Nat)
    (hpos : 1≤count) :
    let s := runPmm calls pmm
    (((pmmAllocContiguous count s).1=none ↔ ¬ ∃ page, FreeRun s.bitmap count page) ↔
      OneSided s count) ∧
    ∀ physical, (pmmAllocContiguous count s).1=some physical →
      ∃ page, physical=page*4096 ∧ FreeRun s.bitmap count page ∧
        RunTaken s (pmmAllocContiguous count s).2 page count := by
  intro s
  have inv : PmmCounts s := (pmmInit_counts hmap hinit).run hbound
  have heffect := pmmAllocContiguous_effect count s
  generalize pmmAllocContiguous count s=r at heffect
  cases heffect with
  | refused hpasses =>
    refine ⟨⟨fun hnone hsome => absurd hsome (hnone.mp rfl),fun hside => iff_of_true rfl ?_⟩,
      fun physical h => by cases h⟩
    intro hsome
    obtain ⟨page,hrun,hone⟩ := hside hsome
    obtain hzero | hmany | ⟨habove,hbelow⟩ := hpasses
    · omega
    · have := inv.run_le hrun
      omega
    obtain hleft | hright := hone
    · exact hbelow page hleft hrun
    · have hlast := ((inv.clear (page+count-1)).mp (hrun _ (by omega) (by omega))).1.1
      exact habove page hright (by omega) hrun
  | @taken page hpos hrun hside =>
    have hsome : ∃ page, FreeRun s.bitmap count page := ⟨page,hrun⟩
    refine ⟨iff_of_true (iff_of_false (Option.some_ne_none _) (not_not.mpr hsome))
      (fun _ => ⟨page,hrun,hside⟩),fun physical h => ?_⟩
    refine ⟨page,(Option.some.inj h).symm,hrun,fun _ => rfl,fun _ => rfl,?_⟩
    have := inv.run_le hrun
    dsimp only [takePages]
    omega

/-- Sixteen usable pages. -/
def sixteenPages : List MemmapEntry := [⟨0,16*4096,.usable⟩]

theorem sixteenPages_wellFormed : WellFormedMap sixteenPages where
  aligned e he _ := by
    rw [mem_singleton.mp he]
    decide
  bounded e he _ := by
    rw [mem_singleton.mp he]
    decide
  disjoint := pairwise_singleton _ _

/-- The allocator of sixteen pages after `pmm_init`. -/
def sixteenPmm : Pmm := (pmmInit sixteenPages).get (by decide +kernel)

theorem sixteenPmm_init : pmmInit sixteenPages=some sixteenPmm := (Option.some_get _).symm

theorem sixteen_pages_books :
    (runPmm [.allocPage,.freePage 8192] sixteenPmm).freePages =
      (clearPages (runPmm [.allocPage,.freePage 8192] sixteenPmm)).card :=
  (pmm_keeps_its_books sixteenPages sixteenPages_wellFormed sixteenPmm sixteenPmm_init
    [.allocPage,.freePage 8192] (by
      intro call hcall
      simp only [mem_cons,not_mem_nil,or_false] at hcall
      obtain rfl | rfl := hcall
      · trivial
      · show 8192<2 ^ 52
        decide)).1

/-- Fourteen free pages are taken at once. -/
theorem fourteen_pages_taken :
    OneSided (runPmm [] sixteenPmm) 14 ∧ ∃ page, 8192=page*4096 ∧ FreeRun (runPmm [] sixteenPmm).bitmap 14 page ∧
      RunTaken (runPmm [] sixteenPmm) (pmmAllocContiguous 14 (runPmm [] sixteenPmm)).2 page 14 := by
  obtain ⟨hexact,htaken⟩ := contiguous_allocation_complete sixteenPages sixteenPages_wellFormed
    sixteenPmm sixteenPmm_init [] (by simp) 14 (by decide)
  obtain ⟨page,hpage,hrun,hchange⟩ := htaken 8192 (by decide +kernel)
  refine ⟨hexact.mp (iff_of_false (by decide +kernel) (not_not.mpr ⟨page,hrun⟩)),?_⟩
  exact ⟨page,hpage,hrun,hchange⟩

/-- Calls that leave the pages 3 and 4 free with the hint between them. -/
def straddlingCalls : List PmmCall :=
  [.allocContiguous 14,.freePage (3*4096),.freePage (5*4096),.freePage (6*4096),
    .allocContiguous 2,.freePage (4*4096)]

/-- The pages 3 and 4 are free, but two pages are not found. -/
theorem straddling_run_missed :
    WellFormedMap sixteenPages ∧ pmmInit sixteenPages=some sixteenPmm ∧
    (∀ call ∈ straddlingCalls, call.InBounds) ∧
    (runPmm straddlingCalls sixteenPmm).bitmap 3=false ∧
    (runPmm straddlingCalls sixteenPmm).bitmap 4=false ∧
    (pmmAllocContiguous 2 (runPmm straddlingCalls sixteenPmm)).1=none := by
  refine ⟨sixteenPages_wellFormed,sixteenPmm_init,?_,by decide +kernel,by decide +kernel,
    by decide +kernel⟩
  intro call hcall
  simp only [straddlingCalls,mem_cons,not_mem_nil,or_false] at hcall
  obtain rfl | rfl | rfl | rfl | rfl | rfl := hcall
  · trivial
  · show 3*4096<2 ^ 52
    decide
  · show 5*4096<2 ^ 52
    decide
  · show 6*4096<2 ^ 52
    decide
  · trivial
  · show 4*4096<2 ^ 52
    decide

end Results

end ConeOS.Memory
