import ConeOS.Fat32.Directory

namespace ConeOS.Fat32

open ConeOS.Library List
open ConeOS.Fs (direntNameMax FsDirent DirentType)

section Listing

variable {slots : List (Position × ByteMemory)}

/-- The decoder after a slot. -/
def lfnStep (lfn : LfnState) (slot : ByteMemory) : LfnState :=
  if kindOf slot = .long then lfnAddEntry lfn slot else lfnReset

/-- The decoder after a list of slots. -/
def lfnAfter (slots : List (Position × ByteMemory)) (lfn : LfnState) : LfnState :=
  slots.foldl (fun lfn q => lfnStep lfn q.2) lfn

/-- An entry as it is met: its place, the decoder before it and its slot. -/
structure Visible where
  place : Position
  decoder : LfnState
  slot : ByteMemory

/-- The entries of a directory. -/
def visible : LfnState → List (Position × ByteMemory) → List Visible
  | _, [] => []
  | lfn, q :: rest =>
    if kindOf q.2 = .finish then []
    else
      (if kindOf q.2 = .entry then [⟨q.1,lfn,q.2⟩] else []) ++ visible (lfnStep lfn q.2) rest

/-- The entries a directory shows, each with its place. -/
def listing (lfn : LfnState) (slots : List (Position × ByteMemory)) : List (Position × FsDirent) :=
  (visible lfn slots).map (fun e => (e.place,direntOf e.decoder e.slot))

/-- The slots before the end marker. -/
def beforeEnd (slots : List (Position × ByteMemory)) : List (Position × ByteMemory) :=
  slots.takeWhile (fun q => kindOf q.2 ≠ .finish)

/-- No end marker among the slots. -/
def Unfinished (slots : List (Position × ByteMemory)) : Prop :=
  ∀ q ∈ slots, kindOf q.2 ≠ .finish

theorem visible_append {before : List (Position × ByteMemory)} (h : Unfinished before)
    (after : List (Position × ByteMemory)) (lfn : LfnState) :
    visible lfn (before ++ after)=visible lfn before ++ visible (lfnAfter before lfn) after := by
  induction before generalizing lfn with
  | nil => rfl
  | cons q before ih =>
    have hq := h q mem_cons_self
    have hrest : Unfinished before := fun r hr => h r (mem_cons_of_mem q hr)
    rw [cons_append,visible,visible,if_neg hq,if_neg hq,ih hrest,append_assoc]
    rfl

theorem listing_append {before : List (Position × ByteMemory)} (h : Unfinished before)
    (after : List (Position × ByteMemory)) (lfn : LfnState) :
    listing lfn (before ++ after)=listing lfn before ++ listing (lfnAfter before lfn) after := by
  rw [listing,visible_append h,map_append]
  rfl

theorem listing_cons (lfn : LfnState) (q : Position × ByteMemory)
    (rest : List (Position × ByteMemory)) :
    listing lfn (q :: rest) =
      if kindOf q.2 = .finish then []
      else
        (if kindOf q.2 = .entry then [(q.1,direntOf lfn q.2)] else []) ++
          listing (lfnStep lfn q.2) rest := by
  rw [listing,visible]
  split_ifs <;> simp [listing]

theorem listing_silent
    (h : ∀ q ∈ slots, kindOf q.2 ≠ .finish ∧ kindOf q.2 ≠ .entry) (lfn : LfnState) :
    listing lfn slots=[] := by
  induction slots generalizing lfn with
  | nil => rfl
  | cons q slots ih =>
    have hq := h q mem_cons_self
    rw [listing_cons,if_neg hq.1,if_neg hq.2,nil_append]
    exact ih (fun r hr => h r (mem_cons_of_mem q hr)) _

theorem readdirStep_scan (index : Nat) {lfn : LfnState}
    {visible : Nat} (hle : visible ≤ index) :
    (scan (fun q s => readdirStep index q.1 q.2 s) slots (lfn,visible)).finish
        (fun _ => some none) =
      some ((listing lfn slots)[index-visible]?.map Prod.snd) := by
  induction slots generalizing lfn visible with
  | nil => rfl
  | cons q slots ih =>
    rw [scan,listing_cons,readdirStep]
    cases hkind : kindOf q.2 with
    | finish => rfl
    | deleted =>
      have hnext : lfnStep lfn q.2=lfnReset := by rw [lfnStep,hkind]; rfl
      simp only [reduceCtorEq,if_false,nil_append,hnext]
      exact ih hle
    | long =>
      have hnext : lfnStep lfn q.2=lfnAddEntry lfn q.2 := by rw [lfnStep,hkind]; rfl
      simp only [reduceCtorEq,if_false,nil_append,hnext]
      exact ih hle
    | label =>
      have hnext : lfnStep lfn q.2=lfnReset := by rw [lfnStep,hkind]; rfl
      simp only [reduceCtorEq,if_false,nil_append,hnext]
      exact ih hle
    | entry =>
      have hnext : lfnStep lfn q.2=lfnReset := by rw [lfnStep,hkind]; rfl
      simp only [reduceCtorEq,if_false,if_true,hnext,singleton_append]
      by_cases hhere : visible=index
      · subst hhere
        rw [if_neg (not_not.mpr rfl),Nat.sub_self]
        rfl
      rw [if_pos hhere]
      dsimp only
      rw [ih (by omega),show index-visible=index-(visible+1)+1 by omega,
        List.getElem?_cons_succ]

theorem readdirIn_eq {v : Volume} {d : Disk} {directory : Nat}
    (hread : ∀ p ∈ dirPositions v d directory, p.sector<d.sectors) (index : Nat) :
    readdirIn v directory index d =
      some ((listing lfnReset (dirSlots v d directory))[index]?.map Prod.snd) := by
  rw [readdirIn,scanDirectory_eq hread,readdirStep_scan index (Nat.zero_le _)]
  rfl

end Listing

section Contributions

variable {lfn : LfnState} {run : List Position}

/-- The slots whose units the decoder holds after a slot. -/
def runStep (lfn : LfnState) (run : List Position) (q : Position × ByteMemory) : List Position :=
  if kindOf q.2 = .long ∧ (lfnAddEntry lfn q.2).active=true then
    if beginsName q.2 then [q.1] else run ++ [q.1]
  else []

def runAfter : List (Position × ByteMemory) → LfnState → List Position → List Position
  | [], _, run => run
  | q :: rest, lfn, run => runAfter rest (lfnStep lfn q.2) (runStep lfn run q)

/-- For each entry, the long-name slots from which `lfn_decode` builds its name. -/
def nameSlots : LfnState → List Position → List (Position × ByteMemory) →
    List (Position × List Position)
  | _, _, [] => []
  | lfn, run, q :: rest =>
    if kindOf q.2 = .finish then []
    else
      (if kindOf q.2 = .entry then
        [(q.1, if (lfnDecode lfn q.2 direntNameMax).isSome then run else [])]
      else []) ++ nameSlots (lfnStep lfn q.2) (runStep lfn run q) rest

/-- How many slots in a row up to the end of a list the decoder has accepted. -/
def acceptedAfter : List (Position × ByteMemory) → LfnState → Nat → Nat
  | [], _, count => count
  | q :: rest, lfn, count =>
    acceptedAfter rest (lfnStep lfn q.2)
      (if kindOf q.2 = .long ∧ (lfnAddEntry lfn q.2).active=true then count+1 else 0)

theorem acceptedAfter_concat (before : List (Position × ByteMemory)) (q : Position × ByteMemory)
    (lfn : LfnState) (count : Nat) :
    acceptedAfter (before ++ [q]) lfn count =
      if kindOf q.2 = .long ∧ (lfnAddEntry (lfnAfter before lfn) q.2).active=true then
        acceptedAfter before lfn count+1
      else 0 := by
  induction before generalizing lfn count with
  | nil => rfl
  | cons r before ih => exact ih _ _

theorem runAfter_append (before after : List (Position × ByteMemory)) (lfn : LfnState)
    (run : List Position) :
    runAfter (before ++ after) lfn run =
      runAfter after (lfnAfter before lfn) (runAfter before lfn run) := by
  induction before generalizing lfn run with
  | nil => rfl
  | cons q before ih => exact ih _ _

theorem nameSlots_append {before : List (Position × ByteMemory)} (h : Unfinished before)
    (after : List (Position × ByteMemory)) (lfn : LfnState) (run : List Position) :
    nameSlots lfn run (before ++ after) =
      nameSlots lfn run before ++
        nameSlots (lfnAfter before lfn) (runAfter before lfn run) after := by
  induction before generalizing lfn run with
  | nil => rfl
  | cons q before ih =>
    have hq := h q mem_cons_self
    have hrest : Unfinished before := fun r hr => h r (mem_cons_of_mem q hr)
    rw [cons_append,nameSlots,nameSlots,if_neg hq,if_neg hq,ih hrest,append_assoc]
    rfl

theorem mem_runStep {q : Position × ByteMemory}
    {p : Position} (h : p ∈ runStep lfn run q) : p ∈ run ∨ p=q.1 := by
  rw [runStep] at h
  split_ifs at h
  · exact .inr (mem_singleton.mp h)
  · obtain h | h := mem_append.mp h
    · exact .inl h
    · exact .inr (mem_singleton.mp h)
  · cases h

/-- A name is built from slots of the run before the list and from slots of the list. -/
theorem nameSlots_subset {slots : List (Position × ByteMemory)} {entry : Position × List Position}
    (h : entry ∈ nameSlots lfn run slots) :
    entry.1 ∈ slots.map Prod.fst ∧ ∀ p ∈ entry.2, p ∈ run ∨ p ∈ slots.map Prod.fst := by
  induction slots generalizing lfn run with
  | nil => cases h
  | cons q slots ih =>
    rw [nameSlots] at h
    by_cases hfinish : kindOf q.2 = .finish
    · rw [if_pos hfinish] at h
      cases h
    rw [if_neg hfinish] at h
    obtain h | h := mem_append.mp h
    · split_ifs at h
      · rw [mem_singleton] at h
        subst h
        exact ⟨mem_cons_self,fun p hp => .inl hp⟩
      · rw [mem_singleton] at h
        subst h
        exact ⟨mem_cons_self,fun p hp => by cases hp⟩
      · cases h
    obtain ⟨hmem,hall⟩ := ih h
    refine ⟨mem_cons_of_mem _ hmem,fun p hp => ?_⟩
    obtain hp | hp := hall p hp
    · obtain hp | hp := mem_runStep hp
      · exact .inl hp
      · rw [hp]
        exact .inr mem_cons_self
    · exact .inr (mem_cons_of_mem _ hp)

end Contributions

section Target

variable {slot : ByteMemory} {name : Name} {slots before : List (Position × ByteMemory)}
  {target : Position} {q : Position × ByteMemory}

theorem kindOf_finish : kindOf slot = .finish ↔ slot 0=0 := by
  rw [kindOf]
  split_ifs with h <;> simp [h]

theorem kindOf_deleted : kindOf slot = .deleted ↔ slot 0=0xE5 := by
  rw [kindOf]
  split_ifs with h1 h2
  · rw [h1]
    simp
  · simp [h2]
  all_goals simp [h2]

theorem kindOf_long :
    kindOf slot = .long ↔ slot 0≠0 ∧ slot 0≠0xE5 ∧ slot 11=0x0F := by
  rw [kindOf]
  split_ifs with h1 h2 h3
  · simp [h1]
  · simp [h2]
  · simp [h1,h2,h3]
  all_goals simp [h3]

theorem lfnAfter_concat (before : List (Position × ByteMemory)) (q : Position × ByteMemory)
    (lfn : LfnState) : lfnAfter (before ++ [q]) lfn=lfnStep (lfnAfter before lfn) q.2 := by
  rw [lfnAfter,foldl_append]
  rfl

theorem findStep_next {p : Position} {lfn lfn' : LfnState}
    (h : findStep name p slot lfn = .next lfn') :
    lfn'=lfnStep lfn slot ∧ kindOf slot ≠ .finish ∧
      (kindOf slot = .entry → matchesName name lfn slot=false) := by
  rw [findStep] at h
  rw [lfnStep]
  cases hkind : kindOf slot with
  | finish =>
    rw [hkind] at h
    cases h
  | entry =>
    rw [hkind] at h
    dsimp only at h
    split_ifs at h with hmatch
    cases h
    exact ⟨rfl,by simp,fun _ => Bool.eq_false_iff.mpr hmatch⟩
  | deleted =>
    rw [hkind] at h
    cases h
    exact ⟨rfl,by simp,by simp⟩
  | long =>
    rw [hkind] at h
    cases h
    exact ⟨rfl,by simp,by simp⟩
  | label =>
    rw [hkind] at h
    cases h
    exact ⟨rfl,by simp,by simp⟩

theorem findStep_scan {lfn : LfnState}
    (h : scan (fun q s => findStep name q.1 q.2 s) slots lfnReset = .next lfn) :
    lfn=lfnAfter slots lfnReset ∧ Unfinished slots := by
  refine scan_next_invariant
    (P := fun slots lfn => lfn=lfnAfter slots lfnReset ∧ Unfinished slots)
    ⟨rfl,by simp [Unfinished]⟩ ?_ h
  intro seen q s s' hseen hnext
  obtain ⟨rfl,hun⟩ := hseen
  obtain ⟨rfl,hq,-⟩ := findStep_next hnext
  refine ⟨(lfnAfter_concat seen q lfnReset).symm,fun t ht => ?_⟩
  obtain ht | ht := mem_append.mp ht
  · exact hun t ht
  · rw [mem_singleton.mp ht]
    exact hq

/-- An entry that was found has the name, and lies behind slots that do not end the
directory. -/
theorem findEntry_some {e : Fat32Entry}
    (h : (scan (fun q s => findStep name q.1 q.2 s) slots lfnReset).finish (fun _ => none) =
      some (e,target)) :
    ∃ before slot after, slots=before ++ (target,slot) :: after ∧ Unfinished before ∧
      kindOf slot = .entry ∧ e=entryOf slot ∧
      matchesName name (lfnAfter before lfnReset) slot=true := by
  cases hscan : scan (fun q s => findStep name q.1 q.2 s) slots lfnReset with
  | next s =>
    rw [hscan] at h
    cases h
  | stop b =>
    rw [hscan] at h
    obtain ⟨before,q,after,lfn,rfl,hbefore,hstop⟩ := scan_stop hscan
    have hb : b=some (e,target) := h
    obtain ⟨rfl,hun⟩ := findStep_scan hbefore
    rw [findStep] at hstop
    cases hkind : kindOf q.2 with
    | entry =>
      rw [hkind] at hstop
      dsimp only at hstop
      split_ifs at hstop with hmatch
      cases hstop
      cases hb
      exact ⟨before,q.2,after,rfl,hun,hkind,rfl,hmatch⟩
    | finish =>
      rw [hkind] at hstop
      cases hstop
      cases hb
    | deleted =>
      rw [hkind] at hstop
      cases hstop
    | long =>
      rw [hkind] at hstop
      cases hstop
    | label =>
      rw [hkind] at hstop
      cases hstop

/-- Positions of long-name slots that stand in a row at the end of a list. -/
def LongSuffix (before : List (Position × ByteMemory)) (ps : List Position) : Prop :=
  ∃ first run, before=first ++ run ∧ run.map Prod.fst=ps ∧ ∀ q ∈ run, kindOf q.2 = .long

theorem LongSuffix.nil (before : List (Position × ByteMemory)) : LongSuffix before [] :=
  ⟨before,[],(append_nil before).symm,rfl,by simp⟩

theorem LongSuffix.concat {ps : List Position} (h : LongSuffix before ps)
    (hlong : kindOf q.2 = .long) : LongSuffix (before ++ [q]) (ps ++ [q.1]) := by
  obtain ⟨first,run,rfl,rfl,hall⟩ := h
  refine ⟨first,run ++ [q],append_assoc ..,map_append ..,fun r hr => ?_⟩
  obtain hr | hr := mem_append.mp hr
  · exact hall r hr
  · rw [mem_singleton.mp hr]
    exact hlong

theorem LongSuffix.suffix {ps : List Position} (h : LongSuffix before ps) :
    ps <:+ before.map Prod.fst := by
  obtain ⟨first,run,rfl,rfl,-⟩ := h
  rw [map_append]
  exact suffix_append ..

/-- Of two such lists the longer one holds the other. -/
theorem LongSuffix.subset_iff {ps qs : List Position} (h : LongSuffix before ps)
    (h' : LongSuffix before qs) (hnodup : (before.map Prod.fst).Nodup) :
    (∀ p ∈ ps, p ∈ qs) ↔ ps.length≤qs.length := by
  constructor
  · intro hsub
    exact (subperm_of_subset (hnodup.sublist h.suffix.sublist) hsub).length_le
  · intro hle p hp
    exact (suffix_of_suffix_length_le h.suffix h'.suffix hle).subset hp

theorem runAfter_concat (before : List (Position × ByteMemory)) (q : Position × ByteMemory)
    (lfn : LfnState) (run : List Position) :
    runAfter (before ++ [q]) lfn run =
      runStep (lfnAfter before lfn) (runAfter before lfn run) q :=
  runAfter_append before [q] lfn run

theorem runAfter_suffix (before : List (Position × ByteMemory)) :
    LongSuffix before (runAfter before lfnReset []) := by
  induction before using List.reverseRecOn with
  | nil => exact .nil []
  | append_singleton before q ih =>
    rw [runAfter_concat,runStep]
    split_ifs with hlong
    · exact (LongSuffix.nil before).concat hlong.1
    · exact ih.concat hlong.1
    · exact .nil _

/-- What the search of `mark_entry_deleted` holds after the slots before its target: `long_count`
counts the accepted slots modulo 21. -/
structure Marking (before : List (Position × ByteMemory))
    (state : LfnState × List Position) : Prop where
  decoder : state.1=lfnAfter before lfnReset
  collected : LongSuffix before state.2
  count : state.2.length=acceptedAfter before lfnReset 0%21

theorem Marking.clear
    (hlong : kindOf q.2 ≠ .long) : Marking (before ++ [q]) (lfnReset, []) where
  decoder := by
    rw [lfnAfter_concat,lfnStep,if_neg hlong]
  collected := .nil _
  count := by
    rw [acceptedAfter_concat,if_neg (fun h => hlong h.1)]
    rfl

theorem Marking.long
    {state : LfnState × List Position} (h : Marking before state) (hlong : kindOf q.2 = .long) :
    Marking (before ++ [q])
      (lfnAddEntry state.1 q.2,
        if (lfnAddEntry state.1 q.2).active ∧ state.2.length<20 then state.2 ++ [q.1]
        else []) := by
  have hdecoder := h.decoder
  have hcount := h.count
  refine ⟨?_,?_,?_⟩
  · rw [lfnAfter_concat,lfnStep,if_pos hlong,hdecoder]
  · dsimp only
    split_ifs
    · exact h.collected.concat hlong
    · exact .nil _
  rw [acceptedAfter_concat,← hdecoder]
  dsimp only
  by_cases hactive : (lfnAddEntry state.1 q.2).active=true
  · rw [if_pos (show kindOf q.2 = .long ∧ _ from ⟨hlong,hactive⟩)]
    -- a full list is emptied by the slot that finds no room in it
    by_cases hroom : state.2.length<20
    · rw [if_pos ⟨hactive,hroom⟩,length_append,length_singleton]
      omega
    · rw [if_neg (fun h => hroom h.2),length_nil]
      omega
  · rw [if_neg (fun h : kindOf q.2 = .long ∧ _ => hactive h.2),if_neg (fun h => hactive h.1)]
    rfl

/-- The search before its target. -/
theorem markStep_marking
    (hun : Unfinished slots) (hother : ∀ q ∈ slots, q.1≠target) :
    ∃ state, scan (fun q s => markStep target q.1 q.2 s) slots (lfnReset, []) = .next state ∧
      Marking slots state := by
  induction slots using List.reverseRecOn with
  | nil => exact ⟨_,rfl,rfl,.nil [],rfl⟩
  | append_singleton slots q ih =>
    obtain ⟨state,hscan,hmark⟩ := ih (fun r hr => hun r (mem_append_left _ hr))
      (fun r hr => hother r (mem_append_left _ hr))
    have hq := hun q (by simp)
    have hne := hother q (by simp)
    rw [scan_append_next hscan]
    have hzero : q.2 0≠0 := fun h => hq (kindOf_finish.mpr h)
    by_cases hdeleted : q.2 0=0xE5
    · refine ⟨(lfnReset, []),?_,Marking.clear ?_⟩
      · rw [scan,markStep,if_neg hzero,if_pos hdeleted]
        rfl
      · rw [kindOf_deleted.mpr hdeleted]
        simp
    by_cases hattr : q.2 11=0x0F
    · refine ⟨_,?_,hmark.long (kindOf_long.mpr ⟨hzero,hdeleted,hattr⟩)⟩
      rw [scan,markStep,if_neg hzero,if_neg hdeleted,if_pos hattr]
      dsimp only
      split_ifs <;> rfl
    refine ⟨(lfnReset, []),?_,Marking.clear ?_⟩
    · rw [scan,markStep,if_neg hzero,if_neg hdeleted,if_neg hattr,if_neg hne]
      rfl
    · intro hlong
      exact hattr (kindOf_long.mp hlong).2.2

/-- What `mark_entry_deleted` is to do. -/
structure EntryRemoved (v : Volume) (directory : Nat) (target : Position) (d d' : Disk) : Prop where
  listing : ∃ before e after,
    listing lfnReset (dirSlots v d directory)=before ++ (target,e) :: after ∧
    listing lfnReset (dirSlots v d' directory)=before ++ after
  readdir : ∀ index,
    readdirIn v directory index d =
      some ((Fat32.listing lfnReset (dirSlots v d directory))[index]?.map Prod.snd) ∧
    readdirIn v directory index d' =
      some ((Fat32.listing lfnReset (dirSlots v d' directory))[index]?.map Prod.snd)
  others : ∀ entry ∈ nameSlots lfnReset [] (dirSlots v d directory), entry.1≠target →
    ∀ p ∈ entry.2, slotAt d' p=slotAt d p

/-- The long-name slots of the entry are gone with it. -/
def NameErased (v : Volume) (directory : Nat) (target : Position) (d d' : Disk) : Prop :=
  ∀ entry ∈ nameSlots lfnReset [] (dirSlots v d directory), entry.1=target →
    ∀ p ∈ entry.2, slotAt d' p 0=0xE5

/-- The slots before an entry. -/
def slotsBefore (v : Volume) (directory : Nat) (target : Position) (d : Disk) :
    List (Position × ByteMemory) :=
  (dirSlots v d directory).takeWhile (fun q => q.1≠target)

/-- The slots accepted in a row directly before the entry, modulo 21, cover those of its long
name, if it has one. -/
def NameCounted (v : Volume) (directory : Nat) (target : Position) (d : Disk) : Prop :=
  (lfnDecode (lfnAfter (slotsBefore v directory target d) lfnReset) (slotAt d target)
    direntNameMax).isSome=true →
  (runAfter (slotsBefore v directory target d) lfnReset []).length ≤
    acceptedAfter (slotsBefore v directory target d) lfnReset 0%21

end Target

section Deletion

variable {v : Volume} {d : Disk} {directory : Nat} {target : Position} {slot : ByteMemory}
  {name : Name} {e : Fat32Entry}

/-- The slots of a directory after an edit that erases some of them. -/
theorem dirSlots_edit {d' : Disk} (hpos : dirPositions v d' directory=dirPositions v d directory)
    {first run after : List (Position × ByteMemory)}
    (hslots : dirSlots v d directory=first ++ run ++ (target,slot) :: after)
    (hkept : ∀ q ∈ first ++ after, slotAt d' q.1=slotAt d q.1) :
    dirSlots v d' directory =
      first ++ run.map (fun q => (q.1,slotAt d' q.1)) ++ (target,slotAt d' target) :: after := by
  have hmap : ∀ slots : List (Position × ByteMemory),
      (∀ q ∈ slots, q ∈ dirSlots v d directory) → (∀ q ∈ slots, slotAt d' q.1=slotAt d q.1) →
      slots.map (fun q => (q.1,slotAt d' q.1))=slots := by
    intro slots hmem hsame
    refine (map_congr_left fun q hq => ?_).trans (map_id _)
    obtain ⟨p,-,rfl⟩ := mem_map.mp (hmem q hq)
    exact Prod.ext rfl (hsame _ hq)
  have hall : dirSlots v d' directory =
      (dirSlots v d directory).map (fun q => (q.1,slotAt d' q.1)) := by
    rw [dirSlots,dirSlots,hpos,map_map]
    rfl
  rw [hall,hslots,map_append,map_append,map_cons]
  rw [hmap first (fun q hq => by rw [hslots]; simp [hq])
      (fun q hq => hkept q (mem_append_left _ hq)),
    hmap after (fun q hq => by rw [hslots]; simp [hq])
      (fun q hq => hkept q (mem_append_right _ hq))]

theorem listing_target (hkind : kindOf slot = .entry) (target : Position)
    (after : List (Position × ByteMemory)) (lfn : LfnState) :
    listing lfn ((target,slot) :: after) =
      (target,direntOf lfn slot) :: listing lfnReset after := by
  rw [listing_cons,lfnStep,hkind]
  rfl

theorem listing_deleted (hkind : kindOf slot = .deleted) (target : Position)
    (after : List (Position × ByteMemory)) (lfn : LfnState) :
    listing lfn ((target,slot) :: after)=listing lfnReset after := by
  rw [listing_cons,lfnStep,hkind]
  rfl

theorem nameSlots_target (hkind : kindOf slot = .entry) (target : Position)
    (after : List (Position × ByteMemory)) (lfn : LfnState) (run : List Position) :
    nameSlots lfn run ((target,slot) :: after) =
      (target, if (lfnDecode lfn slot direntNameMax).isSome then run else []) ::
        nameSlots lfnReset [] after := by
  rw [nameSlots,lfnStep,runStep,hkind]
  rfl

theorem nameSlots_silent {slots : List (Position × ByteMemory)}
    (h : ∀ q ∈ slots, kindOf q.2 = .long) (lfn : LfnState) (run : List Position) :
    nameSlots lfn run slots=[] := by
  induction slots generalizing lfn run with
  | nil => rfl
  | cons q slots ih =>
    have hq := h q mem_cons_self
    rw [nameSlots,if_neg (by rw [hq]; simp),if_neg (by rw [hq]; simp),nil_append]
    exact ih (fun r hr => h r (mem_cons_of_mem q hr)) _ _

theorem eraseSlots_concat (ps : List Position) (p : Position) (d : Disk) :
    eraseSlots (ps ++ [p]) d =
      match eraseSlots ps d with
      | (true,d) => eraseSlot p d
      | (false,d) => (false,d) := by
  induction ps generalizing d with
  | nil =>
    show eraseSlots [p] d=eraseSlot p d
    rw [eraseSlots]
    cases eraseSlot p d with
    | mk ok d' => cases ok <;> rfl
  | cons q ps ih =>
    rw [cons_append,eraseSlots,eraseSlots]
    cases eraseSlot q d with
    | mk ok d' =>
      cases ok with
      | false => rfl
      | true => exact ih d'

/-- On the entry `find_entry` gave, `mark_entry_deleted` erases it together with the slots it
has collected, which stand directly before it. -/
theorem markEntryDeleted_eq (h : v.Sound) (hdir : DirectoryChain v d directory)
    (hfind : findEntry v directory name d=some (e,target)) :
    ∃ before slot after longSlots, dirSlots v d directory=before ++ (target,slot) :: after ∧
      Unfinished before ∧ kindOf slot = .entry ∧ LongSuffix before longSlots ∧
      markEntryDeleted v directory target d=eraseSlots (longSlots ++ [target]) d ∧
      ((lfnDecode (lfnAfter before lfnReset) slot direntNameMax).isSome=true →
        longSlots.length=acceptedAfter before lfnReset 0%21) := by
  have hread := hdir.readable h
  have hnodup := hdir.nodup_positions h
  rw [← map_dirSlots] at hnodup
  rw [findEntry,scanDirectory_eq hread] at hfind
  obtain ⟨before,slot,after,hslots,hun,hkind,-,-⟩ := findEntry_some hfind
  have hother : ∀ q ∈ before, q.1≠target := by
    intro q hq heq
    rw [hslots,map_append,map_cons] at hnodup
    exact (nodup_append.mp hnodup).2.2 q.1 (mem_map_of_mem hq) target
      mem_cons_self heq
  obtain ⟨state,hscan,hmark⟩ := markStep_marking hun hother
  have hzero : slot 0≠0 := by
    intro hz
    rw [kindOf_finish.mpr hz] at hkind
    cases hkind
  have hlive : slot 0≠0xE5 := by
    intro hz
    rw [kindOf_deleted.mpr hz] at hkind
    cases hkind
  have hattr : slot 11≠0x0F := by
    intro hz
    rw [kindOf_long.mpr ⟨hzero,hlive,hz⟩] at hkind
    cases hkind
  have hcall : markEntryDeleted v directory target d =
      eraseSlots ((if (lfnDecode state.1 slot direntNameMax).isSome then state.2 else []) ++
        [target]) d := by
    rw [markEntryDeleted,scanDirectory_eq hread,hslots,scan_append_next hscan,scan,markStep,
      if_neg hzero,if_neg hlive,if_neg hattr,if_pos rfl,eraseSlots_concat]
    rfl
  refine ⟨before,slot,after,_,hslots,hun,hkind,?_,hcall,fun hdecode => ?_⟩
  · split_ifs
    · exact hmark.collected
    · exact .nil before
  · rw [← hmark.decoder] at hdecode
    rw [if_pos hdecode]
    exact hmark.count

theorem apart_of_nodup {α : Type} [DecidableEq α] {first run after : List α}
    (h : (first ++ run ++ after).Nodup) {p : α} (hp : p ∈ first ++ after) : p ∉ run := by
  have hperm : (first ++ run ++ after).Perm ((first ++ after) ++ run) := by
    rw [perm_iff_count]
    intro a
    simp only [count_append]
    omega
  intro hmem
  exact (nodup_append.mp (hperm.nodup_iff.mp h)).2.2 p hp p hmem rfl

theorem slotsBefore_eq {before after : List (Position × ByteMemory)}
    (hslots : dirSlots v d directory=before ++ (target,slot) :: after)
    (hother : ∀ q ∈ before, q.1≠target) : slotsBefore v directory target d=before := by
  rw [slotsBefore,hslots,takeWhile_append_of_pos (fun q hq => decide_eq_true (hother q hq)),
    takeWhile_cons_of_neg (by simp),append_nil]

/-- `mark_entry_deleted` on an entry that `find_entry` gave succeeds within the data area. -/
theorem markEntryDeleted_spec (h : v.Sound) (hdir : DirectoryChain v d directory)
    (hfind : findEntry v directory name d=some (e,target)) :
    ∃ d', markEntryDeleted v directory target d=(true,d') ∧ DataEdit v d d' ∧
      EntryRemoved v directory target d d' ∧
      (NameErased v directory target d d' ↔ NameCounted v directory target d) := by
  obtain ⟨before,slot,after,longSlots,hslots,hun,hkind,hsuffix,hcall,hcount⟩ :=
    markEntryDeleted_eq h hdir hfind
  obtain ⟨first,run,rfl,rfl,hlong⟩ := id hsuffix
  have hfirst : Unfinished first := fun q hq => hun q (mem_append_left _ hq)
  have hnodup := hdir.nodup_positions h
  rw [← map_dirSlots,hslots] at hnodup
  rw [map_append,map_append,map_cons,append_cons,append_assoc (first.map Prod.fst)] at hnodup
  have hplace : ∀ p ∈ run.map Prod.fst ++ [target], SlotPlace v d p := by
    intro p hp
    apply hdir.place h
    rw [← map_dirSlots,hslots]
    simp only [map_append,map_cons,mem_append,mem_cons] at hp ⊢
    tauto
  obtain ⟨d',herase,hedit,herased,hsame⟩ := eraseSlots_spec hplace
  have haligned : ∀ q ∈ dirSlots v d directory, q.1.offset%32=0 := by
    intro q hq
    refine (hdir.place h ?_).aligned
    rw [← map_dirSlots]
    exact mem_map_of_mem hq
  have hkept : ∀ q ∈ first ++ after, slotAt d' q.1=slotAt d q.1 := by
    intro q hq
    have hmem : q ∈ dirSlots v d directory := by
      rw [hslots]
      simp only [mem_append,mem_cons] at hq ⊢
      tauto
    refine hsame q.1 (haligned q hmem) (apart_of_nodup hnodup ?_)
    rw [← map_append]
    exact mem_map_of_mem hq
  have hslots' := dirSlots_edit (hedit.positions h hdir) hslots hkept
  have hrunErased : ∀ q ∈ run.map (fun q => (q.1,slotAt d' q.1)), kindOf q.2 = .deleted := by
    intro q hq
    obtain ⟨r,hr,rfl⟩ := mem_map.mp hq
    exact kindOf_deleted.mpr (herased r.1 (mem_append_left _ (mem_map_of_mem hr)))
  have htarget : kindOf (slotAt d' target) = .deleted :=
    kindOf_deleted.mpr (herased target (by simp))
  have hsplit := nameSlots_append hfirst (run ++ (target,slot) :: after) lfnReset []
  rw [← append_assoc,← hslots,nameSlots_append (fun q hq => by rw [hlong q hq]; simp),
    nameSlots_silent hlong,nil_append,nameSlots_target hkind,← runAfter_append] at hsplit
  refine ⟨d',hcall.trans herase,hedit,⟨?_,?_,?_⟩,?_⟩
  · refine ⟨listing lfnReset first,direntOf (lfnAfter run (lfnAfter first lfnReset)) slot,
      listing lfnReset after,?_,?_⟩
    · have hsilent : listing (lfnAfter first lfnReset) run=[] :=
        listing_silent (fun q hq => by rw [hlong q hq]; simp) _
      rw [hslots,append_assoc,listing_append hfirst,
        listing_append (fun q hq => by rw [hlong q hq]; simp),hsilent,nil_append,
        listing_target hkind]
    have hsilent : listing (lfnAfter first lfnReset)
        (run.map (fun q => (q.1,slotAt d' q.1)))=[] :=
      listing_silent (fun q hq => by rw [hrunErased q hq]; simp) _
    rw [hslots',append_assoc,listing_append hfirst,
      listing_append (fun q hq => by rw [hrunErased q hq]; simp),hsilent,nil_append,
      listing_deleted htarget]
  · intro index
    exact ⟨readdirIn_eq (hdir.readable h) index,
      readdirIn_eq ((hedit.directory h hdir).readable h) index⟩
  · intro entry hentry hne p hp
    rw [hsplit] at hentry
    have hfrom : ∀ slots, (∀ q ∈ slots, q ∈ first ++ after) →
        entry ∈ nameSlots lfnReset [] slots → slotAt d' p=slotAt d p := by
      intro slots hsub hmem
      obtain hp' | hp' := (nameSlots_subset hmem).2 p hp
      · cases hp'
      · obtain ⟨q,hq,rfl⟩ := mem_map.mp hp'
        exact hkept q (hsub q hq)
    obtain hentry | hentry := mem_append.mp hentry
    · exact hfrom first (fun q hq => mem_append_left _ hq) hentry
    · obtain rfl | hentry := mem_cons.mp hentry
      · exact absurd rfl hne
      · exact hfrom after (fun q hq => mem_append_right _ hq) hentry
  have hother : ∀ q ∈ first ++ run, q.1≠target := by
    intro q hq heq
    have hcons := hdir.nodup_positions h
    rw [← map_dirSlots,hslots,map_append,map_cons] at hcons
    exact (nodup_append.mp hcons).2.2 q.1 (mem_map_of_mem hq) target mem_cons_self heq
  have htargetSlot : slot=slotAt d target :=
    (mem_dirSlots (q := (target,slot)) (by rw [hslots]; simp)).2
  have hnames : NameErased v directory target d d' ↔
      ((lfnDecode (lfnAfter (first ++ run) lfnReset) slot direntNameMax).isSome=true →
        ∀ p ∈ runAfter (first ++ run) lfnReset [], slotAt d' p 0=0xE5) := by
    have hnot : ∀ slots, (∀ q ∈ slots, q ∈ first ++ after) →
        ∀ entry ∈ nameSlots lfnReset [] slots, entry.1≠target := by
      intro slots hsub entry hmem heq
      obtain ⟨q,hq,hqe⟩ := mem_map.mp (nameSlots_subset hmem).1
      have hin : target ∈ first.map Prod.fst ++ after.map Prod.fst := by
        rw [← map_append,← heq,← hqe]
        exact mem_map_of_mem (hsub q hq)
      exact apart_of_nodup hnodup hin (by simp)
    have hafter : lfnAfter (first ++ run) lfnReset=lfnAfter run (lfnAfter first lfnReset) := by
      rw [lfnAfter,foldl_append]
      rfl
    rw [NameErased,hsplit,hafter]
    constructor
    · intro hall hdecode
      have hentry := hall _ (mem_append_right _ mem_cons_self) rfl
      rw [if_pos hdecode] at hentry
      exact hentry
    · intro hall entry hentry heq p hp
      obtain hentry | hentry := mem_append.mp hentry
      · exact absurd heq (hnot first (fun q hq => mem_append_left _ hq) entry hentry)
      obtain rfl | hentry := mem_cons.mp hentry
      · dsimp only at hp
        split_ifs at hp with hdecode
        · exact hall hdecode p hp
        · cases hp
      · exact absurd heq (hnot after (fun q hq => mem_append_right _ hq) entry hentry)
  -- of the slots of the name exactly the collected ones are erased
  have hiff : ∀ p ∈ runAfter (first ++ run) lfnReset [],
      slotAt d' p 0=0xE5 ↔ p ∈ run.map Prod.fst := by
    intro p hp
    refine ⟨fun herase => ?_,fun hmem => herased p (mem_append_left _ hmem)⟩
    obtain ⟨first',run',heq,hps,hlong'⟩ := runAfter_suffix (first ++ run)
    rw [← hps] at hp
    obtain ⟨q,hq,rfl⟩ := mem_map.mp hp
    have hmem : q ∈ first ++ run := by
      rw [heq]
      exact mem_append_right _ hq
    obtain hin | hin := mem_append.mp hmem
    · have hsame := (mem_dirSlots (q := q) (by rw [hslots]; exact mem_append_left _ hmem)).2
      rw [hkept q (mem_append_left _ hin),← hsame] at herase
      exact absurd herase (kindOf_long.mp (hlong' q hq)).2.1
    · exact mem_map_of_mem hin
  rw [hnames,NameCounted,slotsBefore_eq hslots hother,← htargetSlot]
  have hdup : ((first ++ run).map Prod.fst).Nodup := by
    have hcons := hdir.nodup_positions h
    rw [← map_dirSlots,hslots,map_append] at hcons
    exact (nodup_append.mp hcons).1
  have hcover := (runAfter_suffix (first ++ run)).subset_iff hsuffix hdup
  refine imp_congr_right (fun hdecode => ?_)
  rw [← hcount hdecode,← hcover]
  exact forall₂_congr hiff

/-- An entry that `find_entry` gave is removed and nothing else; its long name goes with it
exactly if the count of the slots before it covers the name. -/
theorem mark_removes_entry (v : Volume) (d : Disk) (directory : Nat) (h : v.Sound)
    (hdir : DirectoryChain v d directory) (name : Name) (e : Fat32Entry) (target : Position)
    (hfind : findEntry v directory name d=some (e,target)) (d' : Disk)
    (hmark : markEntryDeleted v directory target d=(true,d')) :
    EntryRemoved v directory target d d' ∧
    (NameErased v directory target d d' ↔ NameCounted v directory target d) := by
  obtain ⟨d₁,hcall,-,hremoved,hname⟩ := markEntryDeleted_spec h hdir hfind
  rw [hmark] at hcall
  cases hcall
  exact ⟨hremoved,hname⟩

/-- One FAT sector and clusters of two sectors. -/
def runVolume : Volume := ⟨2,2,2,1,1,1⟩

theorem runVolume_sound : runVolume.Sound :=
  ⟨by decide,by decide,by decide,rfl,by decide,by decide⟩

/-- The long name `b` in one slot, for the short name below. -/
def longSlot : ByteMemory := fun i =>
  if i=0 then 0x41 else if i=1 then 98 else if i=11 then 0x0F else if i=13 then 0x80 else 0

/-- The short name `A` of a file. -/
def shortSlot : ByteMemory := fun i =>
  if i=0 then 65 else if i<11 then space else if i=11 then 0x20 else 0

/-- A directory of one cluster: `count` times the long-name slot, then the short entry. -/
def runDisk (count : Nat) : Disk :=
  ⟨4,fun s i =>
    if s<2 then 0xFF
    else
      let k := (s-2)*16+i/32
      if k<count then longSlot (i%32) else if k=count then shortSlot (i%32) else 0⟩

theorem runDisk_directory (count : Nat) : DirectoryChain runVolume (runDisk count) 2 := by
  have hfat : (runDisk count).data 1=fun _ => 0xFF := rfl
  have hsector : fatSector runVolume 0 2=1 := by decide
  have hnext : nextCluster runVolume 2 (runDisk count)=0x0FFFFFFF := by
    rw [nextCluster_eq runVolume_sound (by show 2≤4; decide) (by decide),hsector,hfat]
    decide
  have hvisited : visitedClusters runVolume (runDisk count) chainLimit 2=[2] := by
    rw [chainLimit,visitedClusters,if_pos (by decide),hnext,visitedClusters,if_neg (by decide)]
  refine ⟨?_,?_,?_⟩
  · rw [hvisited]
    intro c hc
    rw [mem_singleton.mp hc]
    exact ⟨by decide,by decide⟩
  · rw [hvisited]
    intro c hc
    rw [mem_singleton.mp hc,Volume.Inside]
    show 4≤4
    exact Nat.le_refl 4
  · rw [hvisited]
    exact nodup_singleton 2

/-- Behind twenty-one left-over slots the file `b` is removed with its one long-name slot: the count
has begun anew. -/
theorem long_name_removed :
    EntryRemoved runVolume 2 ⟨3,192⟩ (runDisk 22)
      (markEntryDeleted runVolume 2 ⟨3,192⟩ (runDisk 22)).2 ∧
    NameErased runVolume 2 ⟨3,192⟩ (runDisk 22)
      (markEntryDeleted runVolume 2 ⟨3,192⟩ (runDisk 22)).2 := by
  have hcall : ∀ {p : Bool × Disk}, p.1=true → p=(true,p.2) := fun h => Prod.ext h rfl
  obtain ⟨hremoved,hname⟩ := mark_removes_entry runVolume (runDisk 22) 2 runVolume_sound
    (runDisk_directory 22) [98] (entryOf shortSlot) ⟨3,192⟩ (by decide +kernel) _
    (hcall (by decide +kernel))
  have hrun : (runAfter (slotsBefore runVolume 2 ⟨3,192⟩ (runDisk 22)) lfnReset []).length=1 := by
    decide +kernel
  have hcount : acceptedAfter (slotsBefore runVolume 2 ⟨3,192⟩ (runDisk 22)) lfnReset 0=22 := by
    decide +kernel
  refine ⟨hremoved,hname.mpr fun _ => ?_⟩
  rw [hrun,hcount]

/-- Behind twenty left-over long-name slots the one slot of the name `b` is not collected: the
list is full when it is met, and is emptied. The entry is deleted and its name stays. -/
theorem long_name_left_behind :
    runVolume.Sound ∧ DirectoryChain runVolume (runDisk 21) 2 ∧
    findEntry runVolume 2 [98] (runDisk 21)=some (entryOf shortSlot,⟨3,160⟩) ∧
    (markEntryDeleted runVolume 2 ⟨3,160⟩ (runDisk 21)).1=true ∧
    nameSlots lfnReset [] (dirSlots runVolume (runDisk 21) 2)=[(⟨3,160⟩, [⟨3,128⟩])] ∧
    slotAt (markEntryDeleted runVolume 2 ⟨3,160⟩ (runDisk 21)).2 ⟨3,128⟩ 0=0x41 :=
  ⟨runVolume_sound,runDisk_directory 21,by decide +kernel,by decide +kernel,by decide +kernel,
    by decide +kernel⟩

end Deletion

end ConeOS.Fat32
