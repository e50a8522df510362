import ConeOS.Memory.PmmRun

namespace ConeOS.Memory

section Model

/-- `align_up` of a 64-bit word. -/
def alignUpWord (value alignment : Nat) : Nat :=
  (value+alignment-1)%2 ^ 64/alignment*alignment

/-- `highest_address`; the end of an entry is a 64-bit sum. -/
def highestWord (memoryMap : List MemmapEntry) : Nat :=
  memoryMap.foldl (fun highest entry =>
    if entry.type = .usable ∧ (entry.base+entry.length)%2 ^ 64 > highest then
      (entry.base+entry.length)%2 ^ 64
    else highest) 0

/-- `page_count` for any memory map. -/
def pageCountOf (memoryMap : List MemmapEntry) : Nat :=
  alignUpWord (highestWord memoryMap) 4096/4096

/-- `bitmap_test`. The accesses to the two tables are `none` from `page_count` on, where the
tables end. -/
def bitmapTest (page : Nat) (pmm : Pmm) : Option Bool :=
  if page<pmm.pageCount then some (pmm.bitmap page) else none

def bitmapClear (page : Nat) (pmm : Pmm) : Option Pmm :=
  if page<pmm.pageCount then
    some { pmm with bitmap := Function.update pmm.bitmap page false }
  else none

def referencesAt (page : Nat) (pmm : Pmm) : Option Nat :=
  if page<pmm.pageCount then some (pmm.pageReferences page) else none

def setReferencesAt (page references : Nat) (pmm : Pmm) : Option Pmm :=
  if page<pmm.pageCount then
    some { pmm with pageReferences := Function.update pmm.pageReferences page references }
  else none

/-- `pmm_free_page` with every access to the tables. -/
def freePageAccesses (physical : Nat) (pmm : Pmm) : Option (Bool × Pmm) :=
  if physical%4096≠0 ∨ pageIsUsable pmm physical=false then some (false,pmm)
  else if isMetadata pmm physical then some (false,pmm)
  else do
    let page := physical/4096
    let used ← bitmapTest page pmm
    if used=false then some (false,pmm)
    else
      let references ← referencesAt page pmm
      if references > 1 then
        let pmm ← setReferencesAt page (references-1) pmm
        some (true,pmm)
      else
        let pmm ← setReferencesAt page 0 pmm
        let pmm ← bitmapClear page pmm
        some (true, { pmm with
          freePages := pmm.freePages+1
          searchStart := if page<pmm.searchStart then page else pmm.searchStart })

/-- `pmm_retain_page` with every access to the tables. -/
def retainPageAccesses (physical : Nat) (pmm : Pmm) : Option (Bool × Pmm) :=
  if physical%4096≠0 ∨ pageIsUsable pmm physical=false then some (false,pmm)
  else do
    let page := physical/4096
    let used ← bitmapTest page pmm
    if used=false then some (false,pmm)
    else
      let references ← referencesAt page pmm
      if references=0 ∨ references=uint16Max then some (false,pmm)
      else
        let pmm ← setReferencesAt page (references+1) pmm
        some (true,pmm)

/-- `pmm_page_references` with every access to the tables. -/
def pageReferencesAccesses (physical : Nat) (pmm : Pmm) : Option Nat :=
  if physical%4096≠0 ∨ pageIsUsable pmm physical=false then some 0
  else do
    let page := physical/4096
    let used ← bitmapTest page pmm
    if used then referencesAt page pmm else some 0

end Model

section Ends

variable {memoryMap : List MemmapEntry} {pmm : Pmm} {physical : Nat}

/-- The scan keeps the largest end it has seen. -/
theorem highestWord_fold (highest : Nat) :
    let top := memoryMap.foldl (fun highest entry =>
      if entry.type = .usable ∧ (entry.base+entry.length)%2 ^ 64 > highest then
        (entry.base+entry.length)%2 ^ 64
      else highest) highest
    highest≤top ∧ (highest<2 ^ 64 → top<2 ^ 64) ∧
      ∀ e ∈ memoryMap, e.type = .usable → (e.base+e.length)%2 ^ 64≤top := by
  induction memoryMap generalizing highest with
  | nil => simp
  | cons entry memoryMap ih =>
    obtain ⟨hle,hlt,hall⟩ := ih
      (if entry.type = .usable ∧ (entry.base+entry.length)%2 ^ 64 > highest then
        (entry.base+entry.length)%2 ^ 64 else highest)
    rw [List.foldl_cons]
    refine ⟨?_,fun h => hlt ?_,?_⟩
    · refine le_trans ?_ hle
      split_ifs with h
      · exact h.2.le
      · exact le_rfl
    · split_ifs
      · exact Nat.mod_lt _ (by decide)
      · exact h
    intro e he husable
    rcases List.mem_cons.mp he with rfl | he
    · refine le_trans ?_ hle
      split_ifs with h
      · exact le_rfl
      · exact not_lt.mp fun hlt => h ⟨husable,hlt⟩
    · exact hall e he husable

theorem highestWord_le {e : MemmapEntry} (he : e ∈ memoryMap)
    (husable : e.type = .usable) : (e.base+e.length)%2 ^ 64≤highestWord memoryMap :=
  (highestWord_fold 0).2.2 e he husable

/-- The tables end behind the highest entry, unless the rounding wraps and leaves none. -/
theorem pageCountOf_cases (memoryMap : List MemmapEntry) :
    pageCountOf memoryMap<2 ^ 52 ∧
      (highestWord memoryMap≤2 ^ 64-4096 → highestWord memoryMap≤pageCountOf memoryMap*4096) ∧
      (2 ^ 64-4096<highestWord memoryMap → pageCountOf memoryMap=0) := by
  have htop : highestWord memoryMap<2 ^ 64 := (highestWord_fold 0).2.1 (by decide)
  rw [pageCountOf,alignUpWord]
  omega

theorem pageIsUsable_word : pageIsUsable pmm physical=true ↔
    ∃ e ∈ pmm.memoryMap, e.type = .usable ∧ e.base≤physical ∧
      (physical+4096)%2 ^ 64≤(e.base+e.length)%2 ^ 64 := by
  simp only [pageIsUsable,List.any_eq_true,Bool.and_eq_true,decide_eq_true_eq,and_assoc]

/-- An aligned address above the beginning of a usable entry is not the last page of the 64-bit
space, and either no usable entry ends in that last page or this one ends before the end of the
page at the address. -/
def Checked (memoryMap : List MemmapEntry) (physical : Nat) : Prop :=
  physical%4096=0 → ∀ e ∈ memoryMap, e.type = .usable → e.base≤physical →
    physical+4096<2 ^ 64 ∧
      (highestWord memoryMap≤2 ^ 64-4096 ∨ (e.base+e.length)%2 ^ 64<physical+4096)

/-- An accepted page lies inside an entry and its index inside the tables. -/
theorem Checked.inside (hcount : pmm.pageCount=pageCountOf pmm.memoryMap)
    (hchecked : Checked pmm.memoryMap physical) (halign : physical%4096=0)
    (h : pageIsUsable pmm physical=true) :
    physical/4096<pmm.pageCount ∧ ∃ e ∈ pmm.memoryMap, e.type = .usable ∧
      e.base≤physical ∧ physical+4096≤e.base+e.length := by
  obtain ⟨e,he,husable,hbase,hstop⟩ := pageIsUsable_word.mp h
  obtain ⟨hlast,hend⟩ := hchecked halign e he husable hbase
  have htop := highestWord_le he husable
  rw [Nat.mod_eq_of_lt hlast] at hstop
  rcases hend with hend | hshort
  · have hpages := (pageCountOf_cases _).2.1 hend
    refine ⟨?_,e,he,husable,hbase,hstop.trans (Nat.mod_le _ _)⟩
    rw [hcount]
    omega
  · omega

/-- Elsewhere an accepted page has its index behind the tables. -/
theorem outside_of_not_checked (hcount : pmm.pageCount=pageCountOf pmm.memoryMap)
    (hword : physical<2 ^ 64) (hchecked : ¬ Checked pmm.memoryMap physical) :
    physical%4096=0 ∧ pageIsUsable pmm physical=true ∧ pmm.pageCount≤physical/4096 := by
  rw [Checked] at hchecked
  push Not at hchecked
  obtain ⟨halign,e,he,husable,hbase,hwrong⟩ := hchecked
  obtain ⟨hcount₁,-,hcount₂⟩ := pageCountOf_cases pmm.memoryMap
  rw [hcount,pageIsUsable_word]
  by_cases hlast : physical+4096<2 ^ 64
  · obtain ⟨hend,hstop⟩ := hwrong hlast
    refine ⟨halign,⟨e,he,husable,hbase,?_⟩,?_⟩
    · rw [Nat.mod_eq_of_lt hlast]
      exact hstop
    · rw [hcount₂ hend]
      exact Nat.zero_le _
  · have htop : physical=2 ^ 64-4096 := by omega
    refine ⟨halign,⟨e,he,husable,hbase,?_⟩,by omega⟩
    rw [htop]
    exact Nat.zero_le _

end Ends

section Accesses

variable {pmm : Pmm} {physical : Nat}

/-- In bounds, the accesses are those of the plain functions. -/
theorem freePageAccesses_eq
    (h : physical%4096=0 → pageIsUsable pmm physical=true → physical/4096<pmm.pageCount) :
    freePageAccesses physical pmm=some (pmmFreePage physical pmm) := by
  rw [freePageAccesses,pmmFreePage]
  by_cases hreject : physical%4096≠0 ∨ pageIsUsable pmm physical=false
  · rw [if_pos hreject,if_pos hreject]
  rw [if_neg hreject,if_neg hreject]
  by_cases hmeta : isMetadata pmm physical=true
  · rw [if_pos hmeta,if_pos hmeta]
  rw [if_neg hmeta,if_neg hmeta]
  rw [not_or,not_not,Bool.not_eq_false] at hreject
  have hpage := h hreject.1 hreject.2
  by_cases hused : pmm.bitmap (physical/4096)=false
  · simp [bitmapTest,hpage,hused]
  by_cases hshared : pmm.pageReferences (physical/4096) > 1
  · simp [bitmapTest,referencesAt,setReferencesAt,hpage,hused,hshared]
  · simp [bitmapTest,referencesAt,setReferencesAt,bitmapClear,hpage,hused,hshared]

theorem retainPageAccesses_eq
    (h : physical%4096=0 → pageIsUsable pmm physical=true → physical/4096<pmm.pageCount) :
    retainPageAccesses physical pmm=some (pmmRetainPage physical pmm) := by
  rw [retainPageAccesses,pmmRetainPage]
  by_cases hreject : physical%4096≠0 ∨ pageIsUsable pmm physical=false
  · rw [if_pos hreject,if_pos hreject]
  rw [if_neg hreject,if_neg hreject]
  rw [not_or,not_not,Bool.not_eq_false] at hreject
  have hpage := h hreject.1 hreject.2
  by_cases hused : pmm.bitmap (physical/4096)=false
  · simp [bitmapTest,hpage,hused]
  by_cases hcount : pmm.pageReferences (physical/4096)=0 ∨
      pmm.pageReferences (physical/4096)=uint16Max
  · simp [bitmapTest,referencesAt,hpage,hused,hcount]
  · simp [bitmapTest,referencesAt,setReferencesAt,addReference,hpage,hused,hcount]

theorem pageReferencesAccesses_eq
    (h : physical%4096=0 → pageIsUsable pmm physical=true → physical/4096<pmm.pageCount) :
    pageReferencesAccesses physical pmm=some (pmmPageReferences physical pmm) := by
  rw [pageReferencesAccesses,pmmPageReferences]
  by_cases hreject : physical%4096≠0 ∨ pageIsUsable pmm physical=false
  · rw [if_pos hreject,if_pos hreject]
  rw [if_neg hreject,if_neg hreject]
  rw [not_or,not_not,Bool.not_eq_false] at hreject
  have hpage := h hreject.1 hreject.2
  cases hused : pmm.bitmap (physical/4096) <;>
    simp [bitmapTest,referencesAt,hpage,hused]

/-- Behind the tables, the first access is already outside. -/
theorem pageReferencesAccesses_outside (halign : physical%4096=0)
    (h : pageIsUsable pmm physical=true) (hout : pmm.pageCount≤physical/4096) :
    pageReferencesAccesses physical pmm=none := by
  rw [pageReferencesAccesses,if_neg (by simp [halign,h])]
  simp [bitmapTest,hout]

end Accesses

section Runs

/-- `page_count` and the map that no call changes. -/
theorem call_pageCount (call : PmmCall) (pmm : Pmm) :
    (call.run pmm).2.pageCount=pmm.pageCount ∧
      (call.run pmm).2.memoryMap=pmm.memoryMap := by
  have halloc : ∀ reserve, (allocPageWithReserve reserve pmm).2.pageCount=pmm.pageCount ∧
      (allocPageWithReserve reserve pmm).2.memoryMap=pmm.memoryMap := by
    intro reserve
    cases h : allocPageWithReserve reserve pmm with
    | mk address pmm' =>
      cases address with
      | none =>
        rw [alloc_none h]
        exact ⟨rfl,rfl⟩
      | some address =>
        obtain ⟨q,-,-,rfl⟩ := alloc_some h
        exact ⟨rfl,rfl⟩
  cases call with
  | allocPage => exact halloc 0
  | allocUserPage => exact halloc pmmKernelReservePages
  | allocContiguous count =>
    rw [PmmCall.run]
    have heffect := pmmAllocContiguous_effect count pmm
    generalize pmmAllocContiguous count pmm=r at heffect
    cases heffect with
    | refused => exact ⟨rfl,rfl⟩
    | taken => exact ⟨rfl,rfl⟩
  | freePage physical =>
    rw [PmmCall.run,pmmFreePage]
    dsimp only
    split_ifs <;> exact ⟨rfl,rfl⟩
  | retainPage physical =>
    rw [PmmCall.run,pmmRetainPage]
    dsimp only
    split_ifs <;> exact ⟨rfl,rfl⟩

theorem run_pageCount (calls : List PmmCall) (pmm : Pmm) :
    (runPmm calls pmm).pageCount=pmm.pageCount ∧
      (runPmm calls pmm).memoryMap=pmm.memoryMap := by
  induction calls generalizing pmm with
  | nil => exact ⟨rfl,rfl⟩
  | cons call calls ih =>
    rw [runPmm,List.foldl_cons]
    obtain ⟨hpages,hmap⟩ := ih (call.run pmm).2
    exact ⟨hpages.trans (call_pageCount call pmm).1,hmap.trans (call_pageCount call pmm).2⟩

/-- The address checks are sound exactly where `Checked` says so. -/
theorem pmm_addresses_checked (boot : Pmm) (hcount : boot.pageCount=pageCountOf boot.memoryMap)
    (calls : List PmmCall) (physical : Nat) (hword : physical<2 ^ 64) :
    let pmm := runPmm calls boot
    ((physical%4096=0 → pageIsUsable pmm physical=true → ∃ e ∈ boot.memoryMap,
        e.type = .usable ∧ e.base≤physical ∧ physical+4096≤e.base+e.length) ∧
      freePageAccesses physical pmm=some (pmmFreePage physical pmm) ∧
      retainPageAccesses physical pmm=some (pmmRetainPage physical pmm) ∧
      pageReferencesAccesses physical pmm=some (pmmPageReferences physical pmm)) ↔
    Checked boot.memoryMap physical := by
  intro pmm
  obtain ⟨hpages,hmap⟩ := run_pageCount calls boot
  rw [← hpages,← hmap] at hcount
  rw [← hmap]
  constructor
  · intro h
    by_contra hno
    obtain ⟨halign,husable,hout⟩ := outside_of_not_checked hcount hword hno
    have hnone := pageReferencesAccesses_outside halign husable hout
    rw [h.2.2.2] at hnone
    cases hnone
  · intro hchecked
    have hinside := hchecked.inside hcount
    have hindex := fun halign husable => (hinside halign husable).1
    exact ⟨fun halign husable => (hinside halign husable).2,freePageAccesses_eq hindex,
      retainPageAccesses_eq hindex,pageReferencesAccesses_eq hindex⟩

end Runs

section Samples

/-- The last of the sixteen pages, after one allocation. -/
theorem fifteenth_page_checked :
    freePageAccesses (15*4096) (runPmm [.allocPage] sixteenPmm) =
      some (pmmFreePage (15*4096) (runPmm [.allocPage] sixteenPmm)) :=
  ((pmm_addresses_checked sixteenPmm (by decide +kernel) [.allocPage] (15*4096)
    (by decide)).mpr fun _ _ _ _ _ => ⟨by decide,.inl (by decide +kernel)⟩).2.1

/-- A map that ends one byte below 2^64, with the count that wrapped to zero. -/
def wrappedPmm : Pmm :=
  { sixteenPmm with
    memoryMap := [⟨2 ^ 64-65536,65535,.usable⟩]
    pageCount := pageCountOf [⟨2 ^ 64-65536,65535,.usable⟩] }

/-- The last page of the 64-bit space passes the check of any usable entry, and its index is
far outside the tables. On a map that ends at the top, the count itself wraps. -/
theorem last_page_is_accepted :
    sixteenPmm.pageCount=16 ∧
    pageIsUsable sixteenPmm (2 ^ 64-4096)=true ∧
    freePageAccesses (2 ^ 64-4096) sixteenPmm=none ∧
    retainPageAccesses (2 ^ 64-4096) sixteenPmm=none ∧
    pageReferencesAccesses (2 ^ 64-4096) sixteenPmm=none ∧
    wrappedPmm.pageCount=0 ∧
    pageReferencesAccesses (2 ^ 64-65536) wrappedPmm=none := by
  decide +kernel

end Samples

end ConeOS.Memory
