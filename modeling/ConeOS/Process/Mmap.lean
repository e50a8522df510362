import ConeOS.Process.Munmap
import Mathlib.Order.Bounds.Basic

namespace ConeOS.Process

open ConeOS.Library ConeOS.Memory Kernel

/-- The test of the region loop: the region lies neither above nor below the range. -/
def MmapRegion.Meets (region : MmapRegion) (address length : Nat) : Prop :=
  region.used=true ∧ region.start<address+length ∧ address<region.stop

/-- An address of the mmap window whose range meets no region and holds no present page. -/
structure Fits (process : ProcessRecord) (space : VmmSpace) (m : Machine) (length address : Nat) :
    Prop where
  aligned : address%4096=0
  low : mmapAddressStart≤address
  high : address+length ≤ mmapAddressLimit
  regions : ∀ i, ¬ (process.mappings i).Meets address length
  pages : ∀ page, page%4096=0 → address≤page → page<address+length →
    vmmSpaceTranslate space page m=none

section Search

variable {process : ProcessRecord} {space : VmmSpace} {m : Machine} {length candidate : Nat}

/-- What the region loop has found: the furthest end among the regions it has met. -/
structure FurthestEnd (process : ProcessRecord) (candidate length : Nat)
    (visited : Fin maxMmapRegions → Prop) (next : Nat) : Prop where
  found : next=0 ∨ ∃ i, (process.mappings i).Meets candidate length ∧
    (process.mappings i).stop=next
  furthest : ∀ i, visited i → (process.mappings i).Meets candidate length →
    (process.mappings i).stop≤next

theorem nextRegion_furthest (process : ProcessRecord) (candidate length : Nat) :
    FurthestEnd process candidate length (fun _ => True) (nextRegion process candidate length) := by
  have hfrom (is : List (Fin maxMmapRegions)) (visited : Fin maxMmapRegions → Prop) (next : Nat)
      (h : FurthestEnd process candidate length visited next) :
      FurthestEnd process candidate length (fun i => visited i ∨ i ∈ is)
        (is.foldl (fun next i =>
          let region := process.mappings i
          if !region.used || decide (candidate+length≤region.start) ||
              decide (region.stop≤candidate) then next
          else if region.stop > next then region.stop else next) next) := by
    induction is generalizing visited next with
    | nil => exact ⟨h.found,fun i hi => h.furthest i (hi.resolve_right List.not_mem_nil)⟩
    | cons i is ih =>
      rw [List.foldl_cons]
      have hstep : FurthestEnd process candidate length (fun j => visited j ∨ j=i)
          (if !(process.mappings i).used ||
              decide (candidate+length≤(process.mappings i).start) ||
              decide ((process.mappings i).stop≤candidate) then next
            else if (process.mappings i).stop > next then (process.mappings i).stop else next) := by
        split_ifs with hskip hgt
        · refine ⟨h.found,fun j hj hmeets => ?_⟩
          obtain hj | rfl := hj
          · exact h.furthest j hj hmeets
          · obtain ⟨hused,hstart,hstop⟩ := hmeets
            simp only [hused,Bool.not_true,Bool.false_or,Bool.or_eq_true,decide_eq_true_eq] at hskip
            omega
        · simp only [Bool.or_eq_true,Bool.not_eq_true',decide_eq_true_eq,not_or,
            Bool.not_eq_false,not_le] at hskip
          refine ⟨.inr ⟨i,⟨hskip.1.1,hskip.1.2,hskip.2⟩,rfl⟩,fun j hj hmeets => ?_⟩
          obtain hj | rfl := hj
          · have := h.furthest j hj hmeets
            omega
          · exact Nat.le_refl _
        · refine ⟨h.found,fun j hj hmeets => ?_⟩
          obtain hj | rfl := hj
          · exact h.furthest j hj hmeets
          · omega
      have hrest := ih _ _ hstep
      refine ⟨hrest.found,fun j hj => hrest.furthest j ?_⟩
      rw [List.mem_cons] at hj
      tauto
  have hall := hfrom (List.finRange maxMmapRegions) (fun _ => False) 0
    ⟨.inl rfl,fun _ h => h.elim⟩
  exact ⟨hall.found,fun i _ => hall.furthest i (.inr (List.mem_finRange i))⟩

theorem nextRegion_zero (h : nextRegion process candidate length=0) (i : Fin maxMmapRegions) :
    ¬ (process.mappings i).Meets candidate length := by
  intro hmeets
  have hle := (nextRegion_furthest process candidate length).furthest i trivial hmeets
  have hlt := hmeets.2.2
  omega

theorem nextRegion_skips (h : nextRegion process candidate length≠0) {address : Nat}
    (hle : candidate≤address) (hlt : address<nextRegion process candidate length) :
    ∃ i, (process.mappings i).Meets address length := by
  obtain hzero | ⟨i,⟨hused,hstart,-⟩,hstop⟩ :=
    (nextRegion_furthest process candidate length).found
  · exact absurd hzero h
  · exact ⟨i,hused,by omega,by omega⟩

theorem occupied_iff {count page : Nat} :
    occupied space m count page=true ↔
      ∃ k<count, (vmmSpaceTranslate space (page+k*4096) m).isSome=true := by
  induction count generalizing page with
  | zero => simp [occupied]
  | succ count ih =>
    rw [occupied,Bool.or_eq_true,ih]
    constructor
    · intro h
      obtain h | ⟨k,hk,h⟩ := h
      · exact ⟨0,Nat.succ_pos _,by rwa [Nat.zero_mul]⟩
      · refine ⟨k+1,by omega,?_⟩
        rwa [Nat.succ_mul,Nat.add_comm (k*4096),← Nat.add_assoc]
    intro h
    obtain ⟨k,hk,h⟩ := h
    cases k with
    | zero => exact .inl (by rwa [Nat.zero_mul] at h)
    | succ k =>
      refine .inr ⟨k,by omega,?_⟩
      rwa [Nat.succ_mul,Nat.add_comm (k*4096),← Nat.add_assoc] at h

theorem occupied_false (hlength : length%4096=0) (haligned : candidate%4096=0)
    (h : occupied space m (length/4096) candidate=false) {page : Nat} (hpage : page%4096=0)
    (hle : candidate≤page) (hlt : page<candidate+length) :
    vmmSpaceTranslate space page m=none := by
  by_contra hsome
  have hat : candidate+(page-candidate)/4096*4096=page := by omega
  have hocc : occupied space m (length/4096) candidate=true := by
    refine occupied_iff.mpr ⟨(page-candidate)/4096,by omega,?_⟩
    rw [hat]
    exact Option.isSome_iff_ne_none.mpr hsome
  rw [h] at hocc
  cases hocc

/-- The search finds the lowest fitting address from its candidate on, or there is none. -/
theorem selectFrom_lowest (process : ProcessRecord) (space : VmmSpace) (m : Machine)
    (hlength : length%4096=0) (hroom : length ≤ mmapAddressLimit)
    (haligned : candidate%4096=0) (hlow : mmapAddressStart≤candidate) :
    (∀ address, selectFrom process space m length candidate=some address →
      IsLeast {a | Fits process space m length a ∧ candidate≤a} address) ∧
    (selectFrom process space m length candidate=none →
      ∀ a, Fits process space m length a → ¬ candidate≤a) := by
  fun_induction selectFrom process space m length candidate with
  | case1 candidate hlimit =>
    refine ⟨fun address h => (by cases h),fun _ a hfits hle => ?_⟩
    have := hfits.high
    omega
  | case2 candidate hlimit next hnext ih =>
    have hge : candidate<next := (nextRegion_gt process candidate length).resolve_left hnext
    have hup : next≤alignUpPage next ∧ alignUpPage next%4096=0 := by
      rw [alignUpPage]
      omega
    -- no fitting address lies between the candidate and the end it jumps to
    have hskip : ∀ a, Fits process space m length a → candidate≤a → alignUpPage next≤a := by
      intro a hfits hle
      have hpast : next≤a := by
        by_contra hlt
        obtain ⟨i,hmeets⟩ := nextRegion_skips hnext hle (Nat.lt_of_not_le hlt)
        exact hfits.regions i hmeets
      have := hfits.aligned
      rw [alignUpPage]
      omega
    obtain ⟨hsome,hnone⟩ := ih hup.2 (by omega)
    refine ⟨fun address h => ?_,fun h a hfits hle => hnone h a hfits (hskip a hfits hle)⟩
    obtain ⟨⟨hfits,hle⟩,hleast⟩ := hsome address h
    exact ⟨⟨hfits,by omega⟩,fun b hb => hleast ⟨hb.1,hskip b hb.1 hb.2⟩⟩
  | case3 candidate hlimit next hnext hoccupied ih =>
    obtain ⟨k,hk,hpage⟩ := occupied_iff.mp hoccupied
    have hskip : ∀ a, Fits process space m length a → candidate≤a → candidate+4096≤a := by
      intro a hfits hle
      by_contra hlt
      have hsame : a=candidate := by
        have := hfits.aligned
        omega
      subst hsame
      rw [hfits.pages _ (by omega) (by omega) (by omega)] at hpage
      cases hpage
    obtain ⟨hsome,hnone⟩ := ih (by omega) (by omega)
    refine ⟨fun address h => ?_,fun h a hfits hle => hnone h a hfits (hskip a hfits hle)⟩
    obtain ⟨⟨hfits,hle⟩,hleast⟩ := hsome address h
    exact ⟨⟨hfits,by omega⟩,fun b hb => hleast ⟨hb.1,hskip b hb.1 hb.2⟩⟩
  | case4 candidate hlimit next hnext hoccupied =>
    refine ⟨fun address h => ?_,fun h => by cases h⟩
    cases h
    refine ⟨⟨⟨haligned,hlow,by omega,nextRegion_zero (not_not.mp hnext),?_⟩,Nat.le_refl _⟩,
      fun b hb => hb.2⟩
    intro page hpage hle hlt
    exact occupied_false hlength haligned (Bool.eq_false_of_not_eq_true hoccupied) hpage hle hlt

end Search

/-- The hints `process_mmap` lets through. -/
def HintInRange (hint : Nat) : Prop :=
  hint=0 ∨ hint%4096=0 ∧ mmapAddressStart≤hint ∧ hint < mmapAddressLimit

/-- Where the search begins. -/
def searchBase (hint : Nat) : Nat := if hint=0 then mmapAddressStart else hint

/-- `select_mapping_address` is a first fit from the hint on, then from the start of the window,
and fails only if nothing fits. -/
theorem selectMappingAddress_first_fit (process : ProcessRecord) (space : VmmSpace) (m : Machine)
    (hint length : Nat) (hhint : HintInRange hint) (hlength : length%4096=0) :
    (∀ address, selectMappingAddress process space m hint length=some address →
      IsLeast {a | Fits process space m length a ∧ searchBase hint≤a} address ∨
      (¬ ∃ a, Fits process space m length a ∧ searchBase hint≤a) ∧
        IsLeast {a | Fits process space m length a} address) ∧
    (selectMappingAddress process space m hint length=none ↔
      ¬ ∃ a, Fits process space m length a) := by
  have hbase : searchBase hint%4096=0 ∧ mmapAddressStart ≤ searchBase hint := by
    rw [searchBase]
    split_ifs with hzero
    · exact ⟨by decide,Nat.le_refl _⟩
    · obtain h | ⟨h1,h2,-⟩ := hhint
      · exact absurd h hzero
      · exact ⟨h1,h2⟩
  rw [selectMappingAddress]
  by_cases hlong : length > mmapAddressLimit-mmapAddressStart
  · rw [if_pos hlong]
    refine ⟨fun address h => (nomatch h),iff_of_true rfl ?_⟩
    intro h
    obtain ⟨a,hfits⟩ := h
    have := hfits.low
    have := hfits.high
    omega
  rw [if_neg hlong]
  have hroom : length ≤ mmapAddressLimit := by omega
  obtain ⟨hsome,hnone⟩ := selectFrom_lowest process space m hlength hroom hbase.1 hbase.2
  rw [show (if hint=0 then mmapAddressStart else hint)=searchBase hint from rfl]
  cases hfirst : selectFrom process space m length (searchBase hint) with
  | some address =>
    have hleast := hsome address hfirst
    refine ⟨fun a h => ?_,iff_of_false (by simp) (not_not.mpr ⟨address,hleast.1.1⟩)⟩
    cases h
    exact .inl hleast
  | none =>
    have hnothing := hnone hfirst
    have habove : ¬ ∃ a, Fits process space m length a ∧ searchBase hint≤a := by
      intro h
      obtain ⟨a,hfits,hle⟩ := h
      exact hnothing a hfits hle
    dsimp only
    by_cases hagain : hint≠0 ∧ hint≠mmapAddressStart
    · rw [if_pos hagain]
      obtain ⟨hsome',hnone'⟩ := selectFrom_lowest process space m hlength hroom
        (by decide : mmapAddressStart%4096=0) (Nat.le_refl _)
      refine ⟨fun address h => .inr ⟨habove,?_⟩,?_⟩
      · obtain ⟨⟨hfits,-⟩,hleast⟩ := hsome' address h
        exact ⟨hfits,fun b hb => hleast ⟨hb,Fits.low hb⟩⟩
      constructor
      · intro h hex
        obtain ⟨a,hfits⟩ := hex
        exact hnone' h a hfits hfits.low
      intro hno
      cases hsecond : selectFrom process space m length mmapAddressStart with
      | none => rfl
      | some address => exact absurd ⟨address,(hsome' address hsecond).1.1⟩ hno
    · rw [if_neg hagain]
      refine ⟨fun address h => (nomatch h),iff_of_true rfl ?_⟩
      intro h
      obtain ⟨a,hfits⟩ := h
      refine hnothing a hfits ?_
      have := hfits.low
      rw [searchBase]
      split_ifs <;> omega

/-- With three pages mapped at the start of the window, the next page is the one that follows. -/
theorem fourth_page_is_first_fit :
    IsLeast {a | Fits (sampleMapped.processes sampleRecord) ⟨2*4096,false⟩
      sampleMapped.machine 4096 a ∧ searchBase 0≤a} (mmapAddressStart+12288) := by
  have hselect : selectMappingAddress (sampleMapped.processes sampleRecord) ⟨2*4096,false⟩
      sampleMapped.machine 0 4096=some (mmapAddressStart+12288) := by
    decide +kernel
  obtain h | ⟨hnone,h⟩ := (selectMappingAddress_first_fit _ _ _ 0 4096 (.inl rfl) rfl).1 _ hselect
  · exact h
  · exact absurd ⟨_,h.1,h.1.low⟩ hnone

end ConeOS.Process
