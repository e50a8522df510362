import Mathlib.Data.List.Chain
import ConeOS.Fat32.Alias
import ConeOS.Fat32.Write

namespace ConeOS.Fat32

open ConeOS.Library List

section Calls

variable (v : Volume)

/-- The search of `find_free_slots`: the run of free slots so far and whether the end marker was
met. The result tells whether the run is long enough. -/
def freeStep (required : Nat) :
    SlotBody (List Position × Bool) (Option (Bool × List Position)) := fun p slot s =>
  let endSeen := s.2 || slot 0 == 0
  if endSeen || slot 0 == 0xE5 then
    let run := if s.1.length<required then s.1 ++ [p] else s.1
    if run.length=required then .stop (some (true,run)) else .next (run,endSeen)
  else .next ([],endSeen)

/-- The sectors of a cluster that was added are cleared, as far as the run needs them. -/
def clearSectors (required : Nat) :
    List Nat → List Position → Disk → Option (Bool × List Position) × Disk
  | [], run, d => (some (false,run), d)
  | s :: rest, run, d =>
    match blockWriteSector s (fun _ => 0) d with
    | none => (none,d)
    | some d =>
      match scan (fun offset (run : List Position) =>
          if run.length=required then .stop run else .next (run ++ [⟨s,offset⟩]))
          slotOffsets run with
      | .stop run => (some (true,run), d)
      | .next run => clearSectors required rest run d

/-- The loop of `find_free_slots` that adds clusters. Every round adds a slot, so that
`required` rounds are enough. -/
def extendDirectory (required : Nat) :
    Nat → Nat → List Position → Disk → Option (List Position) × Disk
  | 0, _, run, d => (some run,d)
  | rounds+1, last, run, d =>
    if run.length<required then
      match allocateCluster v d with
      | (added,d) =>
        if added=0 then (none,d)
        else
          match updateFat v last added d with
          | (false,d) => (none,d)
          | (true,d) =>
            match clearSectors required (clusterSectors v added) run d with
            | (none,d) => (none,d)
            | (some (true,run), d) => (some run,d)
            | (some (false,run), d) => extendDirectory required rounds added run d
    else (some run,d)

def findFreeSlots (directory required : Nat) (d : Disk) : Option (List Position) × Disk :=
  match scanDirectory v d (freeStep required) none (fun s => some (false,s.1)) directory
      ([],false) with
  | none => (none,d)
  | some (true,run) => (some run,d)
  | some (false,run) =>
    extendDirectory v required required
      ((visitedClusters v d chainLimit directory).getLastD directory) run d

/-- The units of a name, if `utf8_to_utf16` accepts it. -/
def nameUnits (name : Name) : Option (List UInt16) :=
  match (utf8ToUtf16 (name.length+1)).value (fun i => name.getD i 0) with
  | some (true,units) => some units
  | _ => none

/-- The units in a long-name slot: those of the name, a zero, then filling. -/
def unitAt (units : List UInt16) (k : Nat) : Nat :=
  if k<units.length then (units.getD k 0).toNat else if k=units.length then 0 else 0xFFFF

/-- A slot of a long name. -/
def longItem (units : List UInt16) (checksum ordinal : Nat) (first : Bool) : ByteMemory :=
  let header : ByteMemory := fun i =>
    if i=0 then UInt8.ofNat (ordinal ||| if first then 0x40 else 0)
    else if i=11 then 0x0F
    else if i=13 then UInt8.ofNat checksum
    else 0
  (List.range 13).foldl (fun item j =>
    write16 (unitPositions.getD j 0) (unitAt units ((ordinal-1)*13+j)) item) header

/-- The short entry. -/
def shortItem (short : ByteMemory) (attributes : UInt8) (firstCluster : Nat) : ByteMemory :=
  write32 28 0 (write16 26 firstCluster (write16 20 (firstCluster/2 ^ 16) (fun i =>
    if i<11 then short i else if i=11 then attributes else 0)))

/-- A slot written over. -/
def putSlot (p : Position) (slot : ByteMemory) (d : Disk) : Bool × Disk :=
  match blockReadSector p.sector d with
  | none => (false,d)
  | some data =>
    match blockWriteSector p.sector (withSlot p.offset slot data) d with
    | none => (false,d)
    | some d => (true,d)

def putSlots : List (Position × ByteMemory) → Disk → Bool × Disk
  | [], d => (true,d)
  | q :: rest, d =>
    match putSlot q.1 q.2 d with
    | (true,d) => putSlots rest d
    | (false,d) => (false,d)

/-- What is written for a name: its long-name slots and the short entry. -/
def entryItems (units : List UInt16) (long : Bool) (short : ByteMemory) (attributes : UInt8)
    (firstCluster : Nat) : List ByteMemory :=
  let longEntries := if long then (units.length+12)/13 else 0
  (List.range longEntries).map (fun i =>
    longItem units (lfnChecksum short) (longEntries-i) (i == 0)) ++
  [shortItem short attributes firstCluster]

def createNamedEntry (directory : Nat) (name : Name) (attributes : UInt8) (firstCluster : Nat)
    (d : Disk) : Bool × Disk :=
  if (findEntry v directory name d).isSome then (false,d)
  else
    match nameUnits name with
    | none => (false,d)
    | some units =>
      match makeShortAlias v directory name d with
      | none => (false,d)
      | some (short,long) =>
        let items := entryItems units long short attributes firstCluster
        if 21 < items.length then (false,d)
        else
          match findFreeSlots v directory items.length d with
          | (none,d) => (false,d)
          | (some places,d) => putSlots (places.zip items) d

end Calls

section Search

variable {run : List (Position × ByteMemory)} {q : Position × ByteMemory} {required : Nat}

/-- Deleted slots, and behind an end marker any slots. -/
structure FreeRun (run : List (Position × ByteMemory)) (endSeen : Bool) : Prop where
  split : ∃ deleted tail, run=deleted ++ tail ∧ (∀ q ∈ deleted, kindOf q.2 = .deleted) ∧
    (endSeen=false → tail=[]) ∧
    (endSeen=true → ∃ q rest, tail=q :: rest ∧ kindOf q.2 = .finish)

/-- What the search holds after the slots it has seen: a run of free slots at their end. -/
structure FreeScan (seen : List (Position × ByteMemory)) (state : List Position × Bool) : Prop where
  split : ∃ before run, seen=before ++ run ∧ Unfinished before ∧ FreeRun run state.2 ∧
    run.map Prod.fst=state.1

theorem FreeRun.finish (h : FreeRun run false) (hq : kindOf q.2 = .finish) : FreeRun
    (run ++ [q]) true := by
  obtain ⟨deleted,tail,rfl,hdeleted,htail,-⟩ := h.split
  rw [htail rfl,append_nil]
  exact ⟨deleted,[q],rfl,hdeleted,by simp,fun _ => ⟨q,[],rfl,hq⟩⟩

theorem FreeRun.deleted (h : FreeRun run false) (hq : kindOf q.2 = .deleted) : FreeRun
    (run ++ [q]) false := by
  obtain ⟨deleted,tail,rfl,hdeleted,htail,-⟩ := h.split
  rw [htail rfl,append_nil]
  refine ⟨deleted ++ [q],[],by simp,?_,by simp,by simp⟩
  intro r hr
  obtain hr | hr := mem_append.mp hr
  · exact hdeleted r hr
  · rw [mem_singleton.mp hr]
    exact hq

theorem FreeRun.behind (h : FreeRun run true)
    (q : Position × ByteMemory) : FreeRun (run ++ [q]) true := by
  obtain ⟨deleted,tail,rfl,hdeleted,-,htail⟩ := h.split
  obtain ⟨r,rest,rfl,hr⟩ := htail rfl
  exact ⟨deleted,r :: rest ++ [q],by simp,hdeleted,by simp,fun _ => ⟨r,rest ++ [q],rfl,hr⟩⟩

theorem FreeRun.unfinished (h : FreeRun run false) :
    Unfinished run := by
  obtain ⟨deleted,tail,rfl,hdeleted,htail,-⟩ := h.split
  rw [htail rfl,append_nil]
  intro q hq
  rw [hdeleted q hq]
  simp

/-- One slot of the search. -/
theorem freeStep_spec {seen : List (Position × ByteMemory)}
    {state : List Position × Bool} (h : FreeScan seen state) (hshort : state.1.length<required)
    (q : Position × ByteMemory) :
    (∃ state', freeStep required q.1 q.2 state = .next state' ∧ FreeScan (seen ++ [q]) state' ∧
      state'.1.length<required) ∨
    ∃ run endSeen, freeStep required q.1 q.2 state = .stop (some (true,run)) ∧
      FreeScan (seen ++ [q]) (run,endSeen) ∧ run.length=required := by
  obtain ⟨before,run,rfl,hbefore,hrun,hplaces⟩ := h.split
  -- the slot joins the run
  have hjoin : ∀ endSeen, FreeRun (run ++ [q]) endSeen →
      freeStep required q.1 q.2 state =
        (if (state.1 ++ [q.1]).length=required then .stop (some (true,state.1 ++ [q.1]))
          else .next (state.1 ++ [q.1],endSeen)) →
      (∃ state', freeStep required q.1 q.2 state = .next state' ∧
        FreeScan (before ++ run ++ [q]) state' ∧ state'.1.length<required) ∨
      ∃ run' endSeen, freeStep required q.1 q.2 state = .stop (some (true,run')) ∧
        FreeScan (before ++ run ++ [q]) (run',endSeen) ∧ run'.length=required := by
    intro endSeen hfree hstep
    have hscan : FreeScan (before ++ run ++ [q]) (state.1 ++ [q.1],endSeen) :=
      ⟨before,run ++ [q],by rw [append_assoc],hbefore,hfree,by simp [hplaces]⟩
    by_cases hlength : (state.1 ++ [q.1]).length=required
    · rw [if_pos hlength] at hstep
      exact .inr ⟨_,endSeen,hstep,hscan,hlength⟩
    rw [if_neg hlength] at hstep
    refine .inl ⟨_,hstep,hscan,?_⟩
    rw [length_append,length_singleton] at hlength
    dsimp only
    rw [length_append,length_singleton]
    omega
  cases hend : state.2 with
  | true =>
    rw [hend] at hrun
    refine hjoin true (hrun.behind q) ?_
    rw [freeStep,hend,if_pos hshort]
    rfl
  | false =>
    rw [hend] at hrun
    by_cases hfinish : q.2 0=0
    · refine hjoin true (hrun.finish (kindOf_finish.mpr hfinish)) ?_
      rw [freeStep,hend,hfinish,if_pos hshort]
      rfl
    by_cases hdeleted : q.2 0=0xE5
    · refine hjoin false (hrun.deleted (kindOf_deleted.mpr hdeleted)) ?_
      rw [freeStep,hend,hdeleted,if_pos hshort]
      rfl
    refine .inl ⟨([],false),?_,⟨before ++ run ++ [q],[],by simp,?_,?_,rfl⟩,?_⟩
    · simp [freeStep,hend,hfinish,hdeleted]
    · intro r hr
      obtain hr | hr := mem_append.mp hr
      · obtain hr | hr := mem_append.mp hr
        · exact hbefore r hr
        · exact hrun.unfinished r hr
      · rw [mem_singleton.mp hr]
        exact fun h => hfinish (kindOf_finish.mp h)
    · exact ⟨[],[],rfl,by simp,by simp,by simp⟩
    · exact Nat.lt_of_le_of_lt (Nat.zero_le _) hshort

/-- The whole search: a run inside the directory, or one that reaches its end. -/
theorem freeStep_scan (hpos : 0<required)
    (slots : List (Position × ByteMemory)) :
    (∃ run endSeen seen after,
      (scan (fun q s => freeStep required q.1 q.2 s) slots ([],false)).finish
        (fun s => some (false,s.1))=some (true,run) ∧
      slots=seen ++ after ∧ FreeScan seen (run,endSeen) ∧ run.length=required) ∨
    ∃ run endSeen,
      (scan (fun q s => freeStep required q.1 q.2 s) slots ([],false)).finish
        (fun s => some (false,s.1))=some (false,run) ∧
      FreeScan slots (run,endSeen) ∧ run.length<required := by
  have hstart : FreeScan [] ([],false) :=
    ⟨[],[],rfl,by simp [Unfinished],⟨[],[],rfl,by simp,by simp,by simp⟩,rfl⟩
  have hnext : ∀ {seen : List (Position × ByteMemory)} {state : List Position × Bool},
      scan (fun q s => freeStep required q.1 q.2 s) seen ([],false) = .next state →
      FreeScan seen state ∧ state.1.length<required := by
    intro seen state hscan
    refine scan_next_invariant
      (P := fun seen state => FreeScan seen state ∧ state.1.length<required)
      ⟨hstart,hpos⟩ ?_ hscan
    intro seen q s s' hs hstep
    obtain ⟨state',hcall,hfree,hshort⟩ | ⟨run,endSeen,hcall,-⟩ := freeStep_spec hs.1 hs.2 q
    · rw [hcall] at hstep
      cases hstep
      exact ⟨hfree,hshort⟩
    · rw [hcall] at hstep
      cases hstep
  cases hscan : scan (fun q s => freeStep required q.1 q.2 s) slots ([],false) with
  | next state =>
    obtain ⟨hfree,hshort⟩ := hnext hscan
    exact .inr ⟨state.1,state.2,rfl,hfree,hshort⟩
  | stop b =>
    obtain ⟨seen,q,after,s,rfl,hseen,hstop⟩ := scan_stop hscan
    obtain ⟨hfree,hshort⟩ := hnext hseen
    obtain ⟨state',hcall,-⟩ | ⟨run,endSeen,hcall,hfound,hlength⟩ := freeStep_spec hfree hshort q
    · rw [hcall] at hstop
      cases hstop
    · rw [hcall] at hstop
      cases hstop
      exact .inl ⟨run,endSeen,seen ++ [q],after,rfl,by simp,hfound,hlength⟩

end Search

section Extension

variable {v : Volume} {d d' : Disk} {required last c : Nat} {run run' : List Position}
  {sectors : List Nat} {full : Bool} {p : Position}

/-- The places of a sector. -/
def sectorPositions (s : Nat) : List Position := slotOffsets.map (fun offset => ⟨s,offset⟩)

theorem clusterPositions_eq (v : Volume) (c : Nat) :
    clusterPositions v c=(clusterSectors v c).flatMap sectorPositions := by
  rw [clusterPositions,clusterSectors,flatMap_map]
  rfl

/-- The loop over the slots of a cleared sector. -/
theorem takeSlots_scan {s : Nat} (offsets : List Nat)
    (hrun : run.length≤required) :
    scan (fun offset (run : List Position) =>
        if run.length=required then .stop run else .next (run ++ [⟨s,offset⟩])) offsets run =
      if required-run.length<offsets.length then
        .stop (run ++ (offsets.map (fun offset => (⟨s,offset⟩ : Position))).take
          (required-run.length))
      else .next (run ++ offsets.map (fun offset => ⟨s,offset⟩)) := by
  induction offsets generalizing run with
  | nil => simp
  | cons o offsets ih =>
    rw [scan]
    by_cases hfull : run.length=required
    · rw [if_pos hfull,if_pos (by rw [length_cons]; omega),hfull,Nat.sub_self]
      simp
    rw [if_neg hfull]
    have hlen : (run ++ [(⟨s,o⟩ : Position)]).length=run.length+1 := by simp
    have hsplit : required-run.length=required-(run.length+1)+1 := by omega
    dsimp only
    rw [ih (by rw [hlen]; omega),hlen,hsplit,length_cons,map_cons,
      take_succ_cons,append_assoc,append_assoc]
    by_cases hlt : required-(run.length+1)<offsets.length
    · rw [if_pos hlt,if_pos (by omega)]
      rfl
    · rw [if_neg hlt,if_neg (by omega)]
      rfl

/-- What clearing the sectors of a cluster leaves: as many are zero as the run has needed, and
one more slot behind it if the cluster has one. -/
structure Cleared (required : Nat) (sectors : List Nat) (run : List Position) (d : Disk)
    (full : Bool) (run' : List Position) (d' : Disk) : Prop where
  split : ∃ done rest taken left, sectors=done ++ rest ∧
    done.flatMap sectorPositions=taken ++ left ∧ run'=run ++ taken ∧
    (∀ s ∈ done, d'.data s=fun _ => 0) ∧ (∀ s, s ∉ done → d'.data s=d.data s) ∧
    (full=true → run'.length=required ∧ left≠[]) ∧ (full=false → rest=[] ∧ left=[])
  length : run'.length≤required
  device : d'.sectors=d.sectors

theorem clearSectors_spec (hrun : run.length≤required)
    (h : clearSectors required sectors run d=(some (full,run'), d')) :
    Cleared required sectors run d full run' d' := by
  induction sectors generalizing run d with
  | nil =>
    cases h
    exact ⟨⟨[],[],[],[],rfl,rfl,by simp,by simp,by simp,by simp,by simp⟩,hrun,rfl⟩
  | cons s rest ih =>
    rw [clearSectors] at h
    cases hwrite : blockWriteSector s (fun _ => 0) d with
    | none =>
      rw [hwrite] at h
      cases h
    | some d₁ =>
      rw [hwrite] at h
      dsimp only at h
      rw [takeSlots_scan slotOffsets hrun] at h
      have hd₁ : d₁=d.write s (fun _ => 0) := by
        rw [blockWriteSector] at hwrite
        split_ifs at hwrite
        exact (Option.some.inj hwrite).symm
      by_cases hlt : required-run.length<slotOffsets.length
      · rw [if_pos hlt] at h
        cases h
        have hlength : (run ++ (slotOffsets.map (fun offset => (⟨s,offset⟩ : Position))).take
            (required-run.length)).length=required := by
          rw [length_append,length_take,length_map]
          omega
        refine ⟨⟨[s],rest,_,(sectorPositions s).drop (required-run.length),rfl,?_,rfl,?_,
          ?_,?_,by simp⟩,hlength.le,by rw [hd₁]; rfl⟩
        · rw [flatMap_singleton]
          exact (take_append_drop _ _).symm
        · intro t ht
          rw [mem_singleton.mp ht,hd₁,Disk.write_data_self]
        · intro t ht
          rw [hd₁,Disk.write_data_of_ne (fun heq => ht (mem_singleton.mpr heq))]
        intro _
        refine ⟨hlength,?_⟩
        rw [sectorPositions,ne_eq,drop_eq_nil_iff,length_map]
        omega
      rw [if_neg hlt] at h
      have hlen : (run ++ slotOffsets.map (fun offset => (⟨s,offset⟩ : Position))).length ≤
          required := by
        rw [length_append,length_map]
        omega
      have hrest := ih hlen h
      obtain ⟨done,later,taken,left,rfl,hpositions,rfl,hzero,hkept,hfull,hnot⟩ :=
        hrest.split
      refine ⟨⟨s :: done,later,sectorPositions s ++ taken,left,rfl,?_,?_,?_,?_,hfull,
        hnot⟩,hrest.length,by rw [hrest.device,hd₁]; rfl⟩
      · rw [flatMap_cons,hpositions,append_assoc]
      · rw [append_assoc]
        rfl
      · intro t ht
        by_cases hdone : t ∈ done
        · exact hzero t hdone
        · rw [(mem_cons.mp ht).resolve_right hdone,hkept s ?_,hd₁,Disk.write_data_self]
          exact fun hs => hdone ((mem_cons.mp ht).resolve_right hdone ▸ hs)
      · intro t ht
        rw [mem_cons,not_or] at ht
        rw [hkept t ht.2,hd₁,Disk.write_data_of_ne ht.1]

/-- Clusters that were free are linked behind a last one, and only their sectors change. -/
structure Extended (v : Volume) (last : Nat) (added : List Nat) (d d' : Disk) : Prop where
  device : d'.sectors=d.sectors
  entries : ∀ c ∈ added, v.Entry c ∧ nextCluster v c d=0
  nodup : added.Nodup
  fat : ∀ c<v.fatSectors*128, c≠last → c ∉ added → nextCluster v c d'=nextCluster v c d
  links : List.IsChain (fun x y => nextCluster v x d'=y) (last :: added)
  ends : ∀ x ∈ added.getLast?, endOfChain≤nextCluster v x d'
  data : ∀ s, v.dataStartSector ≤ s → (∀ c ∈ added, s ∉ clusterSectors v c) →
    d'.data s=d.data s

theorem Extended.cons {added : List Nat} {d₁ : Disk} (hlast : v.Entry last)
    (hused : nextCluster v last d≠0) (h : Extended v last [c] d d₁) (hadded : added≠[])
    (h' : Extended v c added d₁ d') : Extended v last (c :: added) d d' := by
  have hc := h.entries c mem_cons_self
  have hlink : nextCluster v last d₁=c := isChain_cons_cons.mp h.links |>.1
  have hend : endOfChain≤nextCluster v c d₁ := h.ends c (by simp)
  have hne : last≠c := by
    rintro rfl
    exact hused hc.2
  have hlastOut : last ∉ added := by
    intro hmem
    have hzero := (h'.entries last hmem).2
    have hlow := hc.1.1
    omega
  have hcOut : c ∉ added := by
    intro hmem
    have hzero := (h'.entries c hmem).2
    rw [hzero,endOfChain] at hend
    omega
  refine ⟨h'.device.trans h.device,?_,nodup_cons.mpr ⟨hcOut,h'.nodup⟩,?_,?_,?_,?_⟩
  · intro x hx
    obtain rfl | hx := mem_cons.mp hx
    · exact hc
    have hxentry := h'.entries x hx
    refine ⟨hxentry.1,?_⟩
    rw [← h.fat x hxentry.1.2 (fun heq => hlastOut (heq ▸ hx))
      (fun hmem => hcOut (mem_singleton.mp hmem ▸ hx))]
    exact hxentry.2
  · intro x hx hxlast hxout
    rw [mem_cons,not_or] at hxout
    rw [h'.fat x hx hxout.1 hxout.2,h.fat x hx hxlast (by simpa using hxout.1)]
  · refine isChain_cons_cons.mpr ⟨?_,h'.links⟩
    rw [h'.fat last hlast.2 hne hlastOut,hlink]
  · intro x hx
    rw [List.getLast?_cons_of_ne_nil hadded] at hx
    exact h'.ends x hx
  · intro s hs hout
    rw [h'.data s hs (fun x hx => hout x (mem_cons_of_mem c hx)),
      h.data s hs (by simpa using hout c mem_cons_self)]

/-- One round: a cluster is linked and cleared. -/
theorem extended_single (h : v.Sound) (hbits : v.fatSectors*128≤2 ^ 28)
    (hused : nextCluster v last d≠0) (hlast : v.Entry last) (hc : v.Entry c)
    (hzero : nextCluster v c d=0) {d₂ : Disk} (hdevice : d₂.sectors=d.sectors)
    (hdata : ∀ s, v.dataStartSector ≤ s → d₂.data s=d.data s)
    (hnext : ∀ x<v.fatSectors*128, nextCluster v x d₂ =
      if x=last then c%2 ^ 28 else if x=c then 0x0FFFFFFF else nextCluster v x d)
    (hclear : Cleared required (clusterSectors v c) run d₂ full run' d') :
    Extended v last [c] d d' := by
  obtain ⟨done,rest,taken,left,hsectors,-,-,-,hkept,-,-⟩ := hclear.split
  have hout : ∀ s, s ∉ clusterSectors v c → s ∉ done := by
    intro s hs hmem
    rw [hsectors] at hs
    exact hs (mem_append_left _ hmem)
  have hedit : DataEdit v d₂ d' := by
    refine ⟨hclear.device,fun s hs => hkept s (hout s fun hmem => ?_)⟩
    have := h.mem_clusterSectors hc hmem
    have := h.clusterSector_eq hc
    omega
  have hne : c≠last := by
    rintro rfl
    exact hused hzero
  refine ⟨hclear.device.trans hdevice,?_,nodup_singleton c,?_,?_,?_,?_⟩
  · intro x hx
    rw [mem_singleton.mp hx]
    exact ⟨hc,hzero⟩
  · intro x hx hxlast hxc
    rw [hedit.nextCluster h hx,hnext x hx,if_neg hxlast,
      if_neg (fun heq => hxc (mem_singleton.mpr heq))]
  · refine isChain_cons_cons.mpr ⟨?_,isChain_singleton c⟩
    have hlt := hc.2
    rw [hedit.nextCluster h hlast.2,hnext last hlast.2,if_pos rfl,Nat.mod_eq_of_lt (by omega)]
  · intro x hx
    rw [List.getLast?_singleton] at hx
    cases hx
    rw [hedit.nextCluster h hc.2,hnext c hc.2,if_neg hne,if_pos rfl]
    decide
  · intro s hs hmem
    rw [hkept s (hout s (hmem c mem_cons_self)),hdata s hs]

/-- The slots `find_free_slots` has added: those taken are blank, and so is the next one. -/
structure Appended (v : Volume) (required last : Nat) (run run' : List Position) (d d' : Disk) :
    Prop where
  split : ∃ added taken rest, added≠[] ∧ added.length≤taken.length ∧
    Extended v last added d d' ∧ added.flatMap (clusterPositions v)=taken ++ rest ∧ run'=run ++ taken ∧
    (∀ p ∈ taken, slotAt d' p 0=0) ∧ ∀ p ∈ rest.head?, slotAt d' p 0=0
  length : run'.length=required

theorem slotAt_blank (h : d.data p.sector=fun _ => 0) : slotAt d p 0=0 := by
  rw [slotAt,h]
  rfl

theorem mem_sectorPositions
    (h : p ∈ sectors.flatMap sectorPositions) : p.sector ∈ sectors := by
  obtain ⟨s,hs,hp⟩ := mem_flatMap.mp h
  obtain ⟨offset,-,rfl⟩ := mem_map.mp hp
  exact hs

theorem clusterPositions_length (v : Volume) (c : Nat) :
    (clusterPositions v c).length=v.sectorsPerCluster*16 := by
  rw [clusterPositions,length_flatMap]
  simp [slotOffsets]

theorem extendDirectory_spec (h : v.Sound) (hbits : v.fatSectors*128≤2 ^ 28)
    {rounds : Nat}
    (hfat : v.dataStartSector≤d.sectors) (hlast : v.Entry last)
    (hused : nextCluster v last d≠0) (hrun : run.length<required)
    (hrounds : required≤run.length+rounds)
    (hcall : extendDirectory v required rounds last run d=(some run',d')) :
    Appended v required last run run' d d' := by
  induction rounds generalizing last run d with
  | zero => omega
  | succ rounds ih =>
    rw [extendDirectory,if_pos hrun] at hcall
    obtain ⟨c,d₁,d₂,halloc,hfirst,hlink,hdevice,hdata,hnext⟩ | ⟨halloc,-⟩ :=
      linkCluster_spec h hfat hlast
    · have hc := hfirst.entry
      have hzero := hfirst.free
      have hcne : c≠0 := by
        have := hc.1
        omega
      rw [halloc] at hcall
      dsimp only at hcall
      rw [if_neg hcne,hlink] at hcall
      dsimp only at hcall
      cases hclear : clearSectors required (clusterSectors v c) run d₂ with
      | mk result d₃ =>
        rw [hclear] at hcall
        cases result with
        | none => cases hcall
        | some result =>
          obtain ⟨full,run₁⟩ := result
          have hspec := clearSectors_spec hrun.le hclear
          have hone := extended_single h hbits hused hlast hc hzero hdevice hdata hnext hspec
          obtain ⟨done,rest,taken,left,hsectors,hpositions,hrun₁,hblank,-,hfull,hnot⟩ :=
            hspec.split
          have hall : clusterPositions v c=taken ++ (left ++ rest.flatMap sectorPositions) := by
            rw [clusterPositions_eq,hsectors,flatMap_append,hpositions,append_assoc]
          have hzeros : ∀ p ∈ taken ++ left, slotAt d₃ p 0=0 := by
            intro p hp
            rw [← hpositions] at hp
            exact slotAt_blank (hblank _ (mem_sectorPositions hp))
          cases full with
          | true =>
            cases hcall
            obtain ⟨hlength,hleft⟩ := hfull rfl
            have htaken : 1≤taken.length := by
              rw [hrun₁,length_append] at hlength
              omega
            refine ⟨⟨[c],taken,left ++ rest.flatMap sectorPositions,by simp,htaken,hone,
              by rw [flatMap_singleton,hall],hrun₁,
              fun p hp => hzeros p (mem_append_left _ hp),?_⟩,hlength⟩
            intro p hp
            rw [List.head?_append_of_ne_nil _ hleft] at hp
            exact hzeros p (mem_append_right _ (mem_of_mem_head? hp))
          | false =>
            obtain ⟨rfl,rfl⟩ := hnot rfl
            rw [flatMap_nil,append_nil,append_nil] at hall
            dsimp only at hcall
            by_cases hmore : run₁.length<required
            · have hfat₃ : v.dataStartSector≤d₃.sectors := by
                rw [hone.device]
                exact hfat
              have hend : endOfChain≤nextCluster v c d₃ := hone.ends c (by simp)
              have hused₃ : nextCluster v c d₃≠0 := by
                rw [endOfChain] at hend
                omega
              have hlen := clusterPositions_length v c
              have hper := h.perCluster
              rw [hall] at hlen
              have hgrown : required≤run₁.length+rounds := by
                rw [hrun₁,length_append]
                omega
              obtain ⟨⟨added,taken',rest,hadded,hcount,hext,hpositions',hrun',hblank',hhead⟩,
                hlength⟩ := ih hfat₃ hc hused₃ hmore hgrown hcall
              refine ⟨⟨c :: added,taken ++ taken',rest,by simp,?_,
                hone.cons hlast hused hadded hext,?_,?_,?_,hhead⟩,hlength⟩
              · rw [length_cons,length_append]
                omega
              · rw [flatMap_cons,hall,hpositions',append_assoc]
              · rw [hrun',hrun₁,append_assoc]
              intro p hp
              obtain hp | hp := mem_append.mp hp
              · rw [← hall] at hp
                have hplace := (h.mem_clusterPositions hc).mp hp
                have hsector := h.clusterSector_eq hc
                rw [slotAt,hext.data p.sector (by omega),← slotAt]
                · rw [hall] at hp
                  exact hzeros p (mem_append_left _ hp)
                intro x hx hmem
                have hxentry := hext.entries x hx
                have hne : c≠x := by
                  rintro rfl
                  exact hused₃ hxentry.2
                have := h.mem_clusterSectors hxentry.1 hmem
                have := h.clusterSector_apart hc hxentry.1 hne
                omega
              · exact hblank' p hp
            · have hdone : extendDirectory v required rounds c run₁ d₃=(some run₁,d₃) := by
                cases rounds with
                | zero => rfl
                | succ rounds => rw [extendDirectory,if_neg hmore]
              rw [hdone] at hcall
              cases hcall
              have hlength := Nat.le_antisymm hspec.length (Nat.not_lt.mp hmore)
              have htaken : 1≤taken.length := by
                rw [hrun₁,length_append] at hlength
                omega
              exact ⟨⟨[c],taken,[],by simp,htaken,hone,by rw [flatMap_singleton,hall,append_nil],
                hrun₁,fun p hp => hzeros p (mem_append_left _ hp),by simp⟩,hlength⟩
    · rw [halloc] at hcall
      cases hcall

end Extension

section Names

variable {slots before after : List (Position × ByteMemory)} {q : Position × ByteMemory}

theorem beforeEnd_append (h : Unfinished before) (after : List (Position × ByteMemory)) :
    beforeEnd (before ++ after)=before ++ beforeEnd after :=
  takeWhile_append_of_pos (fun q hq => decide_eq_true (h q hq))

theorem beforeEnd_unfinished (h : Unfinished before) : beforeEnd before=before := by
  have := beforeEnd_append h []
  rwa [append_nil,show beforeEnd []=[] from rfl,append_nil] at this

theorem liveShorts_append (h : Unfinished before) (after : List (Position × ByteMemory)) :
    liveShorts (before ++ after)=liveShorts before ++ liveShorts after := by
  rw [liveShorts,liveShorts,liveShorts,beforeEnd_append h,beforeEnd_unfinished h,
    filter_append,map_append]

theorem liveShorts_finished (h : ∀ q ∈ slots.head?, kindOf q.2 = .finish) :
    liveShorts slots=[] := by
  cases slots with
  | nil => rfl
  | cons q slots => rw [liveShorts,beforeEnd_cons_finish (h q rfl)]; rfl

theorem liveShorts_silent (h : ∀ q ∈ slots, kindOf q.2 ≠ .entry) : liveShorts slots=[] := by
  have hnone : (beforeEnd slots).filter (fun q => kindOf q.2 = .entry)=[] := by
    rw [filter_eq_nil_iff]
    intro q hq
    simpa using h q (takeWhile_subset _ hq)
  rw [liveShorts,hnone,map_nil]

theorem liveShorts_cons (h : kindOf q.2 ≠ .finish)
    (slots : List (Position × ByteMemory)) :
    liveShorts (q :: slots)=liveShorts [q] ++ liveShorts slots := by
  have hone : Unfinished [q] := by
    intro r hr
    rw [mem_singleton.mp hr]
    exact h
  exact liveShorts_append hone slots

theorem liveShorts_cons_finish (h : kindOf q.2 = .finish)
    (slots : List (Position × ByteMemory)) : liveShorts (q :: slots)=[] :=
  liveShorts_finished (fun r hr => by cases hr; exact h)

theorem liveShorts_sublist (before after : List (Position × ByteMemory)) :
    (liveShorts (before ++ after)).Sublist (liveShorts before ++ liveShorts after) := by
  induction before with
  | nil => exact List.Sublist.refl _
  | cons q before ih =>
    rw [cons_append]
    by_cases hfinish : kindOf q.2 = .finish
    · rw [liveShorts_cons_finish hfinish]
      exact nil_sublist _
    · rw [liveShorts_cons hfinish,liveShorts_cons hfinish before,append_assoc]
      exact ih.append_left _

theorem liveShorts_left (before after : List (Position × ByteMemory)) :
    (liveShorts before).Sublist (liveShorts (before ++ after)) := by
  induction before with
  | nil => exact nil_sublist _
  | cons q before ih =>
    rw [cons_append]
    by_cases hfinish : kindOf q.2 = .finish
    · rw [liveShorts_cons_finish hfinish]
      exact nil_sublist _
    · rw [liveShorts_cons hfinish,liveShorts_cons hfinish (before ++ after)]
      exact ih.append_left _

/-- Behind an end marker there are only end markers. -/
def CleanEnd (slots : List (Position × ByteMemory)) : Prop :=
  ∀ before q after, slots=before ++ q :: after → kindOf q.2 = .finish →
    ∀ r ∈ after, kindOf r.2 = .finish

/-- A run of free slots shows no name. -/
theorem FreeRun.names {run : List (Position × ByteMemory)} {endSeen : Bool}
    (h : FreeRun run endSeen) (hclean : CleanEnd (before ++ run ++ after)) :
    liveShorts (run ++ after)=liveShorts after := by
  obtain ⟨deleted,tail,rfl,hdeleted,hnone,hsome⟩ := h.split
  have hun : Unfinished deleted := by
    intro q hq
    rw [hdeleted q hq]
    simp
  have hsilent : liveShorts deleted=[] := by
    refine liveShorts_silent (fun q hq => ?_)
    rw [hdeleted q hq]
    simp
  rw [append_assoc,liveShorts_append hun,hsilent,nil_append]
  cases endSeen with
  | false => rw [hnone rfl,nil_append]
  | true =>
    obtain ⟨q,rest,rfl,hq⟩ := hsome rfl
    have hafter : ∀ r ∈ after.head?, kindOf r.2 = .finish := by
      intro r hr
      refine hclean (before ++ deleted) q (rest ++ after) (by simp) hq r ?_
      exact mem_append_right _ (mem_of_mem_head? hr)
    rw [liveShorts_finished hafter,cons_append,liveShorts_cons_finish hq]

end Names

section Slots

variable {v : Volume} {d d' : Disk} {directory : Nat} {clusters cs : List Nat} {endSeen : Bool}
  {last required : Nat}

theorem visitedClusters_links (rounds c : Nat) :
    List.IsChain (fun x y => nextCluster v x d=y) (visitedClusters v d rounds c) ∧
      ∀ x ∈ (visitedClusters v d rounds c).head?, x=c := by
  induction rounds generalizing c with
  | zero => exact ⟨isChain_nil,by simp [visitedClusters]⟩
  | succ rounds ih =>
    rw [visitedClusters]
    split_ifs
    · obtain ⟨hlinks,hhead⟩ := ih (nextCluster v c d)
      exact ⟨hlinks.cons (fun y hy => (hhead y hy).symm),by simp⟩
    · exact ⟨isChain_nil,by simp⟩

/-- The loops go through linked clusters with an end. -/
theorem visitedClusters_linked {first : Nat}
    (hlinks : List.IsChain (fun x y => nextCluster v x d=y) (first :: clusters))
    (hends : ∀ x ∈ (first :: clusters).getLast?, endOfChain≤nextCluster v x d)
    (hvalid : ∀ x ∈ first :: clusters, 2 ≤ x ∧ x<endOfChain) (rounds : Nat) :
    visitedClusters v d rounds first=(first :: clusters).take rounds := by
  induction clusters generalizing first rounds with
  | nil =>
    have hend := hends first (by simp)
    cases rounds with
    | zero => rfl
    | succ rounds =>
      rw [visitedClusters,if_pos (hvalid first mem_cons_self),take_succ_cons]
      cases rounds with
      | zero => rfl
      | succ rounds => rw [visitedClusters,if_neg (by omega),take_nil]
  | cons x clusters ih =>
    obtain ⟨hnext,hrest⟩ := isChain_cons_cons.mp hlinks
    cases rounds with
    | zero => rfl
    | succ rounds =>
      rw [visitedClusters,if_pos (hvalid first mem_cons_self),hnext,take_succ_cons,
        ih hrest (fun y hy => hends y (by simpa using hy))
          (fun y hy => hvalid y (mem_cons_of_mem first hy))]

/-- The slots `find_free_slots` has found: the directory is, or begins with, what stands before
them, the slots themselves and what stands behind them. -/
structure FoundSlots (v : Volume) (directory required : Nat) (places : List Position)
    (d d' : Disk) : Prop where
  split : ∃ before run after : List (Position × ByteMemory),
    dirPositions v d' directory <+: (before ++ run ++ after).map Prod.fst ∧
    (∀ q ∈ before ++ after, q.2=slotAt d' q.1) ∧
    ((before ++ run ++ after).map Prod.fst).Nodup ∧
    (∀ q ∈ before ++ run ++ after, v.dataStartSector≤q.1.sector ∧ q.1.offset%32=0) ∧
    run.map Prod.fst=places ∧
    liveShorts (dirSlots v d directory)=liveShorts before ++ liveShorts after
  length : places.length=required
  entries : ∀ c ∈ visitedClusters v d' chainLimit directory, v.Entry c
  inside : (visitedClusters v d chainLimit directory).length+required≤chainLimit →
    ∀ p ∈ places, p ∈ dirPositions v d' directory

/-- A run inside the directory. -/
theorem foundSlots_inside (h : v.Sound) (hdir : DirectoryChain v d directory)
    (hclean : CleanEnd (dirSlots v d directory)) {seen after : List (Position × ByteMemory)}
    {run : List Position} (hslots : dirSlots v d directory=seen ++ after)
    (hfree : FreeScan seen (run,endSeen)) :
    FoundSlots v directory run.length run d d := by
  obtain ⟨before,found,rfl,hbefore,hfound,hplaces⟩ := hfree.split
  refine ⟨⟨before,found,after,?_,?_,?_,?_,hplaces,?_⟩,rfl,hdir.entries,fun _ p hp => ?_⟩
  · rw [← hslots,map_dirSlots]
  · intro q hq
    have hmem : q ∈ dirSlots v d directory := by
      rw [hslots]
      simp only [mem_append] at hq ⊢
      tauto
    exact (mem_dirSlots hmem).2
  · rw [← hslots,map_dirSlots]
    exact hdir.nodup_positions h
  · intro q hq
    rw [← hslots] at hq
    have hplace := hdir.place h (mem_dirSlots hq).1
    exact ⟨hplace.data,hplace.aligned⟩
  · rw [hslots] at hclean ⊢
    rw [append_assoc,liveShorts_append hbefore,hfound.names hclean]
  · rw [← map_dirSlots,hslots,map_append,map_append,hplaces]
    exact mem_append_left _ (mem_append_right _ hp)

/-- Clusters that were added behind the last one are linked to it. -/
theorem Extended.chain {added : List Nat}
    (hentries : ∀ c ∈ clusters ++ [last], v.Entry c) (hnodup : (clusters ++ [last]).Nodup)
    (hused : ∀ c ∈ clusters, nextCluster v c d≠0)
    (hlinks : List.IsChain (fun x y => nextCluster v x d=y) (clusters ++ [last]))
    (h : Extended v last added d d') :
    List.IsChain (fun x y => nextCluster v x d'=y) (clusters ++ last :: added) := by
  have hsame : ∀ c ∈ clusters, nextCluster v c d'=nextCluster v c d := by
    intro c hc
    refine h.fat c (hentries c (mem_append_left _ hc)).2 ?_ ?_
    · exact (nodup_append.mp hnodup).2.2 c hc last (mem_singleton_self last)
    · exact fun hmem => hused c hc (h.entries c hmem).2
  rw [isChain_append] at hlinks ⊢
  obtain ⟨hfirst,-,hjoin⟩ := hlinks
  refine ⟨hfirst.imp_of_mem_imp (fun x y hx _ hxy => ?_),h.links,?_⟩
  · rw [hsame x hx]
    exact hxy
  intro x hx y hy
  rw [hsame x (mem_of_mem_getLast? hx)]
  cases hy
  exact hjoin x hx last rfl

/-- A run that goes on in clusters that were added. -/
theorem foundSlots_appended (h : v.Sound) (hbits : v.fatSectors*128≤endOfChain)
    (hchain : FileChain v d directory cs)
    (hclean : CleanEnd (dirSlots v d directory))
    (hlast : (visitedClusters v d chainLimit directory).getLast? = some last)
    {run run' : List Position}
    (hfree : FreeScan (dirSlots v d directory) (run,endSeen))
    (happended : Appended v required last run run' d d') :
    FoundSlots v directory required run' d d' := by
  obtain ⟨added,taken,rest,hadded,hcount,hext,hpositions,rfl,hblank,hnext⟩ := happended.split
  obtain ⟨before,found,hslots,hbefore,hfound,hplaces⟩ := hfree.split
  have hdir := hchain.directory
  have hused : ∀ c ∈ visitedClusters v d chainLimit directory, nextCluster v c d≠0 := by
    rw [hchain.links.visited]
    exact fun c hc => hchain.links.next_ne_zero c (mem_of_mem_take hc)
  have hall : ∀ c ∈ visitedClusters v d chainLimit directory ++ added, v.Entry c := by
    intro c hc
    obtain hc | hc := mem_append.mp hc
    · exact hdir.entries c hc
    · exact (hext.entries c hc).1
  have hnodup : (visitedClusters v d chainLimit directory ++ added).Nodup := by
    refine nodup_append.mpr ⟨hdir.nodup,hext.nodup,?_⟩
    rintro a ha b hb rfl
    exact hused a ha (hext.entries a hb).2
  have hvisited : visitedClusters v d' chainLimit directory =
      (visitedClusters v d chainLimit directory ++ added).take chainLimit := by
    have hsplit := dropLast_append_getLast? last hlast
    obtain ⟨hlinks,hhead⟩ := visitedClusters_links (v := v) (d := d) chainLimit directory
    have hfirst : ∀ c ∈ (visitedClusters v d chainLimit directory).dropLast,
        nextCluster v c d≠0 := fun c hc => hused c (mem_of_mem_dropLast hc)
    have hlinked := hext.chain (by rw [hsplit]; exact hdir.entries)
      (by rw [hsplit]; exact hdir.nodup) hfirst (by rw [hsplit]; exact hlinks)
    rw [append_cons,hsplit] at hlinked
    cases hvisited : visitedClusters v d chainLimit directory with
    | nil =>
      rw [hvisited] at hlast
      cases hlast
    | cons x clusters =>
      rw [hvisited] at hlinked hhead hall
      rw [hhead x rfl] at hlinked hall ⊢
      refine visitedClusters_linked hlinked (fun y hy => hext.ends y ?_)
        (fun y hy => ⟨(hall y hy).1,(hall y hy).2.trans_le hbits⟩) chainLimit
      have hmem : y ∈ (directory :: clusters ++ added).getLast? := hy
      rwa [List.getLast?_append_of_ne_nil _ hadded] at hmem
  have hwide : (before ++ (found ++ taken.map (fun p => (p,slotAt d' p))) ++
      rest.map (fun p => (p,slotAt d' p))).map Prod.fst =
      (visitedClusters v d chainLimit directory ++ added).flatMap (clusterPositions v) := by
    have hold : before.map Prod.fst ++ found.map Prod.fst=dirPositions v d directory := by
      rw [← map_dirSlots,hslots,map_append]
    have hid : ∀ ps : List Position, (ps.map (fun p => (p,slotAt d' p))).map Prod.fst=ps := by
      intro ps
      rw [map_map]
      exact map_id ps
    rw [map_append,map_append,map_append,hid,hid,flatMap_append,hpositions,← dirPositions,← hold]
    simp only [append_assoc]
  refine ⟨⟨before,found ++ taken.map (fun p => (p,slotAt d' p)),
    rest.map (fun p => (p,slotAt d' p)),?_,?_,?_,?_,?_,?_⟩,happended.length,?_,?_⟩
  · rw [hwide,dirPositions,hvisited]
    exact ( take_prefix ..).flatMap _
  · intro q hq
    obtain hq | hq := mem_append.mp hq
    · have hmem := mem_dirSlots (by rw [hslots]; exact mem_append_left _ hq)
      obtain ⟨c,hc,hp⟩ := mem_flatMap.mp hmem.1
      have hplace := (h.mem_clusterPositions (hdir.entries c hc)).mp hp
      have hsector := h.clusterSector_eq (hdir.entries c hc)
      rw [hmem.2,slotAt,slotAt,hext.data q.1.sector (by omega)]
      intro x hx hin
      have hxentry := hext.entries x hx
      have hne : c≠x := by
        rintro rfl
        exact hused c hc hxentry.2
      have := h.mem_clusterSectors hxentry.1 hin
      have := h.clusterSector_apart (hdir.entries c hc) hxentry.1 hne
      omega
    · obtain ⟨p,-,rfl⟩ := mem_map.mp hq
      rfl
  · rw [hwide]
    exact h.nodup_positions hall hnodup
  · intro q hq
    have hmem := mem_map_of_mem (f := Prod.fst) hq
    rw [hwide] at hmem
    obtain ⟨c,hc,hp⟩ := mem_flatMap.mp hmem
    have hplace := (h.mem_clusterPositions (hall c hc)).mp hp
    have hsector := h.clusterSector_eq (hall c hc)
    exact ⟨by omega,hplace.2.2.2⟩
  · rw [map_append,hplaces,map_map]
    exact congrArg _ (map_id _)
  · have hrest : liveShorts (rest.map (fun p => (p,slotAt d' p)))=[] := by
      refine liveShorts_finished (fun q hq => ?_)
      rw [List.head?_map] at hq
      obtain ⟨p,hp,rfl⟩ := Option.map_eq_some_iff.mp hq
      exact kindOf_finish.mpr (hnext p hp)
    have hclean' : CleanEnd (before ++ found ++ []) := by
      rw [append_nil,← hslots]
      exact hclean
    have hnames := hfound.names hclean'
    rw [append_nil] at hnames
    rw [hslots,liveShorts_append hbefore,hnames,hrest]
    rfl
  · rw [hvisited]
    exact fun c hc => hall c (mem_of_mem_take hc)
  · intro hroom p hp
    have hlength := happended.length
    rw [length_append] at hlength
    rw [dirPositions,hvisited,take_of_length_le (by rw [length_append]; omega),← hwide,map_append,
      map_append,map_append,hplaces,map_map]
    have hid : (Prod.fst ∘ fun p => (p,slotAt d' p))=id := rfl
    rw [hid,map_id]
    exact mem_append_left _ (mem_append_right _ hp)

/-- `find_free_slots` when it succeeds. -/
theorem findFreeSlots_spec (h : v.Sound) (hbits : v.fatSectors*128≤endOfChain)
    (hchain : FileChain v d directory cs) (hne : cs≠[])
    (hclean : CleanEnd (dirSlots v d directory)) (hpos : 0<required)
    {places : List Position} (hcall : findFreeSlots v directory required d=(some places,d')) :
    FoundSlots v directory required places d d' := by
  have hdir := hchain.directory
  rw [findFreeSlots,scanDirectory_eq (hdir.readable h)] at hcall
  obtain ⟨run,endSeen,seen,after,hscan,hslots,hfree,hlength⟩ |
    ⟨run,endSeen,hscan,hfree,hlength⟩ := freeStep_scan hpos (dirSlots v d directory)
  · rw [hscan] at hcall
    cases hcall
    rw [← hlength]
    exact foundSlots_inside h hdir hclean hslots hfree
  rw [hscan] at hcall
  dsimp only at hcall
  have hvisited : visitedClusters v d chainLimit directory≠[] := by
    rw [hchain.links.visited]
    simp [hne,chainLimit]
  obtain ⟨last,hlast⟩ := Option.ne_none_iff_exists'.mp
    (mt List.getLast?_eq_none_iff.mp hvisited)
  have hmem := mem_of_getLast? hlast
  have hlastD : (visitedClusters v d chainLimit directory).getLastD directory=last := by
    rw [getLastD_eq_getLast?,hlast]
    rfl
  have hentry := hdir.entries last hmem
  have hused : nextCluster v last d≠0 := by
    rw [hchain.links.visited] at hmem
    exact hchain.links.next_ne_zero last (mem_of_mem_take hmem)
  have hfat : v.dataStartSector≤d.sectors := by
    have hinside := hdir.inside last hmem
    rw [Volume.Inside,h.clusterSector_eq hentry] at hinside
    omega
  rw [hlastD] at hcall
  exact foundSlots_appended h hbits hchain hclean hlast hfree
    (extendDirectory_spec h (hbits.trans (by decide)) hfat hentry hused hlength (by omega) hcall)

end Slots

section Entries

variable {v : Volume} {d d' : Disk} {attributes : UInt8} {firstCluster : Nat}

/-- Slots written at different places, and no other one. -/
theorem putSlots_spec {items : List (Position × ByteMemory)}
    (hnodup : (items.map Prod.fst).Nodup)
    (hplace : ∀ q ∈ items, v.dataStartSector≤q.1.sector ∧ q.1.offset%32=0)
    (hcall : putSlots items d=(true,d')) :
    DataEdit v d d' ∧ (∀ q ∈ items, ∀ i<32, slotAt d' q.1 i=q.2 i) ∧
      ∀ p, p.offset%32=0 → p ∉ items.map Prod.fst → slotAt d' p=slotAt d p := by
  induction items generalizing d with
  | nil =>
    cases hcall
    exact ⟨DataEdit.refl v _,by simp,fun _ _ _ => rfl⟩
  | cons q items ih =>
    have hq := hplace q mem_cons_self
    rw [map_cons,nodup_cons] at hnodup
    by_cases hinside : q.1.sector<d.sectors
    · have hput : putSlot q.1 q.2 d=(true,d.setSlot q.1 q.2) := by
        rw [putSlot,blockReadSector_eq hinside]
        dsimp only
        rw [blockWriteSector_eq hinside]
        rfl
      rw [putSlots,hput] at hcall
      obtain ⟨hedit,hitems,hothers⟩ := ih hnodup.2
        (fun r hr => hplace r (mem_cons_of_mem q hr)) hcall
      have hfirst : DataEdit v d (d.setSlot q.1 q.2) := DataEdit.write hq.1 _
      refine ⟨hfirst.trans hedit,?_,?_⟩
      · intro r hr i hi
        obtain rfl | hr := mem_cons.mp hr
        · rw [hothers r.1 hq.2 hnodup.1,slotAt_setSlot_self _ _ hi]
        · exact hitems r hr i hi
      · intro p hp hout
        rw [map_cons,mem_cons,not_or] at hout
        rw [hothers p hp hout.2,slotAt_setSlot_of_ne hq.2 hp hout.1]
    · rw [putSlots,putSlot,blockReadSector,if_neg hinside] at hcall
      cases hcall

/-- The attribute byte of a long-name slot is not written over by its units. -/
theorem longItem_attribute (units : List UInt16) (checksum ordinal : Nat) (first : Bool) :
    longItem units checksum ordinal first 11=0x0F := by
  have hkeep : ∀ (js : List Nat) (item : ByteMemory),
      (∀ j ∈ js, unitPositions.getD j 0+2≤11 ∨ 11<unitPositions.getD j 0) →
      js.foldl (fun item j =>
        write16 (unitPositions.getD j 0) (unitAt units ((ordinal-1)*13+j)) item) item 11 =
      item 11 := by
    intro js
    induction js with
    | nil => exact fun _ _ => rfl
    | cons j js ih =>
      intro item hall
      rw [foldl_cons,ih _ (fun k hk => hall k (mem_cons_of_mem j hk)),write16]
      obtain hlow | hhigh := hall j mem_cons_self
      · exact store_apply_of_ge (by rw [toLittleEndian_length]; exact hlow)
      · exact store_apply_of_lt hhigh
  rw [longItem,hkeep _ _ (by decide)]
  rfl

theorem shortItem_bytes (short : ByteMemory) (attributes : UInt8) (firstCluster : Nat) {i : Nat}
    (hi : i<11) : shortItem short attributes firstCluster i=short i := by
  rw [shortItem,write32,write16,write16,store_apply_of_lt (by omega),
    store_apply_of_lt (by omega),store_apply_of_lt (by omega),if_pos hi]

theorem liveShorts_singleton (q : Position × ByteMemory) :
    (liveShorts [q]).Sublist [shortBytes q.2] := by
  by_cases hfinish : kindOf q.2 = .finish
  · rw [liveShorts_cons_finish hfinish]
    exact nil_sublist _
  · rw [liveShorts,beforeEnd_cons_next hfinish,show beforeEnd []=[] from rfl]
    exact (filter_sublist).map _

/-- What `create_named_entry` has done when it succeeds: the slots of the entry stand at the
places that were found, the short one last. -/
structure EntryWritten (v : Volume) (directory : Nat) (name : Name) (attributes : UInt8)
    (firstCluster : Nat) (d d' : Disk) : Prop where
  written : ∃ units short long longPlaces p d₁,
    findEntry v directory name d=none ∧ nameUnits name=some units ∧
    makeShortAlias v directory name d=some (short,long) ∧
    FoundSlots v directory (longPlaces ++ [p]).length (longPlaces ++ [p]) d d₁ ∧
    DataEdit v d₁ d' ∧
    (∀ q ∈ (longPlaces ++ [p]).zip (entryItems units long short attributes firstCluster),
      ∀ i<32, slotAt d' q.1 i=q.2 i) ∧
    (longPlaces ++ [p]).length=(entryItems units long short attributes firstCluster).length ∧
    (longPlaces ++ [p]).length≤21 ∧ ∀ q, q.offset%32=0 → q ∉ longPlaces ++ [p] → slotAt d' q=slotAt d₁ q

theorem entryItems_length (units : List UInt16) (long : Bool) (short : ByteMemory)
    (attributes : UInt8) (firstCluster : Nat) :
    0<(entryItems units long short attributes firstCluster).length := by
  rw [entryItems,length_append,length_singleton]
  omega

theorem createNamedEntry_written (h : v.Sound) (hbits : v.fatSectors*128≤endOfChain)
    {directory : Nat} {cs : List Nat} (hchain : FileChain v d directory cs) (hne : cs≠[])
    (hclean : CleanEnd (dirSlots v d directory)) {name : Name}
    (hcreate : createNamedEntry v directory name attributes firstCluster d=(true,d')) :
    EntryWritten v directory name attributes firstCluster d d' := by
  rw [createNamedEntry] at hcreate
  cases hfind : findEntry v directory name d with
  | some found =>
    rw [hfind] at hcreate
    cases hcreate
  | none =>
    rw [hfind] at hcreate
    cases hunits : nameUnits name with
    | none =>
      rw [hunits] at hcreate
      cases hcreate
    | some units =>
      cases hmake : makeShortAlias v directory name d with
      | none =>
        rw [hunits,hmake] at hcreate
        cases hcreate
      | some result =>
        obtain ⟨short,long⟩ := result
        rw [hunits,hmake] at hcreate
        dsimp only [Option.isSome] at hcreate
        rw [if_neg (by simp)] at hcreate
        have hpos := entryItems_length units long short attributes firstCluster
        generalize hitems : entryItems units long short attributes firstCluster=items
          at hcreate hpos
        by_cases hlong : 21 < items.length
        · rw [if_pos hlong] at hcreate
          cases hcreate
        rw [if_neg hlong] at hcreate
        cases hslots : findFreeSlots v directory items.length d with
        | mk found d₁ =>
          rw [hslots] at hcreate
          cases found with
          | none => cases hcreate
          | some places =>
            dsimp only at hcreate
            have hfound := findFreeSlots_spec h hbits hchain hne hclean hpos hslots
            obtain ⟨before,run,after,-,-,hnodup,hplaced,rfl,-⟩ := hfound.split
            have hlength := hfound.length
            have hzip : ((run.map Prod.fst).zip items).map Prod.fst=run.map Prod.fst :=
              map_fst_zip hlength.le
            have hplaces : (run.map Prod.fst).Nodup := by
              rw [map_append,map_append,append_assoc] at hnodup
              exact (nodup_append.mp (nodup_append.mp hnodup).2.1).1
            have hall : ∀ q ∈ (run.map Prod.fst).zip items,
                v.dataStartSector≤q.1.sector ∧ q.1.offset%32=0 := by
              intro q hq
              obtain ⟨r,hr,heq⟩ := mem_map.mp (of_mem_zip hq).1
              rw [← heq]
              exact hplaced r (by simp [hr])
            obtain ⟨hedit,hwritten,hothers⟩ := putSlots_spec (by rw [hzip]; exact hplaces) hall
              hcreate
            rw [hzip] at hothers
            have hnonempty : run.map Prod.fst≠[] := by
              intro hnil
              rw [hnil,length_nil] at hlength
              omega
            have hsplit := dropLast_append_getLast hnonempty
            refine ⟨units,short,long,(run.map Prod.fst).dropLast,
              (run.map Prod.fst).getLast hnonempty,d₁,hfind,hunits,hmake,?_,hedit,?_,?_,?_,?_⟩
            · rw [hsplit,hlength]
              exact hfound
            · rw [hsplit,hitems]
              exact hwritten
            · rw [hsplit,hitems]
              exact hlength
            · rw [hsplit]
              omega
            · rw [hsplit]
              exact hothers

/-- The slots of a new entry show at most its short name. -/
theorem written_names {units : List UInt16} {long : Bool} {short : ByteMemory}
    {longPlaces : List Position} {p : Position}
    (hlength : (longPlaces ++ [p]).length =
      (entryItems units long short attributes firstCluster).length)
    (hwritten : ∀ q ∈ (longPlaces ++ [p]).zip
      (entryItems units long short attributes firstCluster), ∀ i<32, slotAt d' q.1 i=q.2 i) :
    shortBytes (slotAt d' p)=shortBytes short ∧
      (liveShorts ((longPlaces ++ [p]).map (fun p => (p,slotAt d' p)))).Sublist
        [shortBytes short] := by
  rw [entryItems] at hlength hwritten
  generalize hlongs : (List.range (if long then (units.length+12)/13 else 0)).map (fun i =>
    longItem units (lfnChecksum short) ((if long then (units.length+12)/13 else 0)-i)
      (i == 0))=longs at hlength hwritten
  simp only [length_append,length_singleton,Nat.add_right_cancel_iff] at hlength
  rw [zip_append hlength] at hwritten
  have hshort : shortBytes (slotAt d' p)=shortBytes short := by
    refine load_congr (fun i hi => ?_)
    rw [Nat.zero_add,hwritten (p,_) (mem_append_right _ (mem_singleton_self _)) i
      (by omega)]
    exact shortItem_bytes _ _ _ hi
  have hsilent : liveShorts (longPlaces.map (fun p => (p,slotAt d' p)))=[] := by
    refine liveShorts_silent (fun q hq hkind => ?_)
    obtain ⟨p',hp',rfl⟩ := mem_map.mp hq
    rw [← map_fst_zip hlength.le] at hp'
    obtain ⟨r,hr,rfl⟩ := mem_map.mp hp'
    have hattr : slotAt d' r.1 11=0x0F := by
      rw [hwritten r (mem_append_left _ hr) 11 (by decide)]
      have hitem := (of_mem_zip hr).2
      rw [← hlongs] at hitem
      obtain ⟨i,-,heq⟩ := mem_map.mp hitem
      rw [← heq,longItem_attribute]
    dsimp only at hkind
    rw [kindOf] at hkind
    split_ifs at hkind
  refine ⟨hshort,?_⟩
  rw [map_append]
  refine (liveShorts_sublist _ _).trans ?_
  rw [hsilent,nil_append,← hshort]
  exact liveShorts_singleton _

/-- Creating an entry keeps the short names of a directory apart, and its alias is the name in
upper case or a numbered one. -/
theorem short_names_stay_unique (v : Volume) (d : Disk) (h : v.Sound)
    (hbits : v.fatSectors*128≤endOfChain) (directory : Nat) (cs : List Nat)
    (hchain : FileChain v d directory cs) (hne : cs≠[])
    (hclean : CleanEnd (dirSlots v d directory))
    (hunique : (liveShorts (dirSlots v d directory)).Nodup) (name : Name) (attributes : UInt8)
    (firstCluster : Nat) (d' : Disk)
    (hcreate : createNamedEntry v directory name attributes firstCluster d=(true,d')) :
    (liveShorts (dirSlots v d' directory)).Nodup ∧
    ∃ short long p, makeShortAlias v directory name d=some (short,long) ∧
      shortBytes (slotAt d' p)=shortBytes short ∧
      (cs.length+21≤chainLimit → p ∈ dirPositions v d' directory) ∧
      (UpperForm name (shortBytes short) ∨ NumberedForm (shortBytes short)) := by
  obtain ⟨units,short,long,longPlaces,p,d₁,hfind,-,hmake,hfound,hedit,hwritten,hlength,hfew,
    hothers⟩ := (createNamedEntry_written h hbits hchain hne hclean hcreate).written
  obtain ⟨hshort,hnames⟩ := written_names hlength hwritten
  have hform : UpperForm name (shortBytes short) ∨ NumberedForm (shortBytes short) :=
    (makeShortAlias_some hmake).imp And.right And.right
  have hvisited : visitedClusters v d' chainLimit directory =
      visitedClusters v d₁ chainLimit directory :=
    visitedClusters_congr (fun c hc => hedit.nextCluster h (hfound.entries c hc).2)
  have hinside : cs.length+21≤chainLimit → p ∈ dirPositions v d' directory := by
    intro hroom
    rw [dirPositions,hvisited]
    refine hfound.inside ?_ p (by simp)
    rw [hchain.links.visited,length_take]
    omega
  refine ⟨?_,short,long,p,hmake,hshort,hinside,hform⟩
  have hfresh := makeShortAlias_fresh (hchain.directory.readable h) hfind hmake
  obtain ⟨before,run,after,hpositions,hslots,hnodup,hplaced,hrun,hlive⟩ := hfound.split
  rw [hlive] at hunique hfresh
  -- the slots before and behind the run have stayed
  have hkept : ∀ slots : List (Position × ByteMemory), (∀ q ∈ slots, q ∈ before ++ after) →
      slots.map (fun q => (q.1,slotAt d' q.1))=slots := by
    intro slots hsub
    refine (map_congr_left fun q hq => ?_).trans (map_id _)
    have hin := hsub q hq
    have hout : q.1 ∉ longPlaces ++ [p] := by
      rw [← hrun]
      rw [map_append,map_append] at hnodup
      refine apart_of_nodup hnodup ?_
      rw [← map_append]
      exact mem_map_of_mem hin
    refine Prod.ext rfl ?_
    dsimp only
    rw [hothers q.1 (hplaced q (by simp only [mem_append] at hin ⊢; tauto)).2 hout]
    exact (hslots q hin).symm
  have hwide : dirSlots v d' directory <+:
      before ++ (longPlaces ++ [p]).map (fun p => (p,slotAt d' p)) ++ after := by
    obtain ⟨more,hmore⟩ := hpositions
    refine ⟨more.map (fun p => (p,slotAt d' p)),?_⟩
    rw [dirSlots,dirPositions,hvisited,← dirPositions,← map_append,hmore,← hrun,
      map_map,map_map,map_append,map_append]
    congr 1
    · congr 1
      exact hkept before (fun q hq => mem_append_left _ hq)
    · exact hkept after (fun q hq => mem_append_right _ hq)
  obtain ⟨more,hmore⟩ := hwide
  have hbound := (liveShorts_left (dirSlots v d' directory) more)
  rw [hmore] at hbound
  have hspread := (liveShorts_sublist (before ++ (longPlaces ++ [p]).map
    (fun p => (p,slotAt d' p))) after).trans
    (((liveShorts_sublist before _).trans (hnames.append_left _)).append_right _)
  refine (hbound.trans hspread).nodup ?_
  rw [append_assoc,singleton_append,nodup_middle,nodup_cons]
  exact ⟨hfresh,hunique⟩

theorem cleanEnd_of_all {slots : List (Position × ByteMemory)}
    (h : (slots.dropWhile (fun q => kindOf q.2 ≠ .finish)).all
      (fun q => decide (kindOf q.2 = .finish))=true) : CleanEnd slots := by
  rw [all_eq_true] at h
  intro before q after hslots hq r hr
  refine of_decide_eq_true (h r ?_)
  rw [hslots]
  clear h hslots
  induction before with
  | nil =>
    rw [nil_append,dropWhile_cons_of_neg (by simp [hq])]
    exact mem_cons_of_mem q hr
  | cons x before ih =>
    rw [cons_append,dropWhile_cons]
    split_ifs
    · exact ih
    · exact mem_cons_of_mem x (mem_append_right _ (mem_cons_of_mem q hr))

/-- In a directory with the file `A` the name `a.b.c` gets an alias of its own, in a slot of the
directory. -/
theorem dotted_name_unique :
    (liveShorts (dirSlots sampleVolume (createNamedEntry sampleVolume 2 [97,46,98,46,99] 0x20 5
      (fileDisk fullFat)).2 2)).Nodup ∧
    ∃ short long p,
      makeShortAlias sampleVolume 2 [97,46,98,46,99] (fileDisk fullFat)=some (short,long) ∧
      shortBytes (slotAt (createNamedEntry sampleVolume 2 [97,46,98,46,99] 0x20 5
        (fileDisk fullFat)).2 p)=shortBytes short ∧
      p ∈ dirPositions sampleVolume (createNamedEntry sampleVolume 2 [97,46,98,46,99] 0x20 5
        (fileDisk fullFat)).2 2 := by
  have hpair : ∀ {r : Bool × Disk}, r.1=true → r=(true,r.2) := fun h => Prod.ext h rfl
  obtain ⟨hnodup,short,long,p,hmake,hshort,hinside,-⟩ := short_names_stay_unique sampleVolume
    (fileDisk fullFat) sampleVolume_sound (by decide) 2 [2]
    (sampleVolume_chain rfl (.inl rfl) (by decide +kernel)) (by decide)
    (cleanEnd_of_all (by decide +kernel)) (by decide +kernel) [97,46,98,46,99] 0x20 5 _
    (hpair (by decide +kernel))
  exact ⟨hnodup,short,long,p,hmake,hshort,hinside (by decide)⟩

end Entries

end ConeOS.Fat32
