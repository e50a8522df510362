import ConeOS.Fat32.Tree

namespace ConeOS.Fat32

open ConeOS.Library List
open ConeOS.Vfs (dot fsPathMax)
open ConeOS.Fs (FsDirent)

section Calls

/-- A slot that `fat32_remove_directory` takes for `.` or `..`. -/
def dotLike (slot : ByteMemory) : Prop := slot 0=dot ∧ (slot 1=space ∨ slot 1=dot)

instance (slot : ByteMemory) : Decidable (dotLike slot) :=
  inferInstanceAs (Decidable (slot 0=dot ∧ (slot 1=space ∨ slot 1=dot)))

def emptyStep : SlotBody Unit Bool := fun _ slot _ =>
  if slot 0=0 then .stop true
  else if slot 0=0xE5 then .next ()
  else if dotLike slot then .next ()
  else .stop false

/-- The search of `fat32_remove_directory` for something left in the directory. -/
def directoryEmpty (v : Volume) (directory : Nat) (d : Disk) : Bool :=
  scanDirectory v d emptyStep false (fun _ => true) directory ()

/-- `fat32_remove_directory`, with a number of rounds for the loop that frees the chain. -/
def removeDirectory (v : Volume) (rounds : Nat) (path : Name) (d : Disk) : Option (Bool × Disk) :=
  match splitParent path with
  | none => some (false,d)
  | some (parent,leaf) =>
    match resolveDirectory v parent d with
    | none => some (false,d)
    | some parentCluster =>
      match findEntry v parentCluster leaf d with
      | none => some (false,d)
      | some (entry,target) =>
        if entry.attributes &&& 0x10=0 ∨ entry.cluster<2 then some (false,d)
        else if directoryEmpty v entry.cluster d then
          match markEntryDeleted v parentCluster target d with
          | (false,d) => some (false,d)
          | (true,d) => freeChain v rounds entry.cluster d
        else some (false,d)

end Calls

section Emptiness

variable {slots : List (Position × ByteMemory)}

/-- The name under which an entry is listed. -/
def Visible.shown (e : Visible) : Name := (direntOf e.decoder e.slot).name

def IsDots (name : Name) : Prop := name=[dot] ∨ name=[dot,dot]

instance (name : Name) : Decidable (IsDots name) :=
  inferInstanceAs (Decidable (name=[dot] ∨ name=[dot,dot]))

/-- An entry that both loops take for contents. -/
def Ordinary (slots : List (Position × ByteMemory)) : Prop :=
  ∃ e ∈ visible lfnReset slots, ¬ IsDots e.shown ∧ ¬ dotLike e.slot

/-- An entry that is listed under another name than the dots, but is taken for one of them by its
short name, as `..FOO` is. -/
def Hidden (slots : List (Position × ByteMemory)) : Prop :=
  ∃ e ∈ visible lfnReset slots, ¬ IsDots e.shown ∧ dotLike e.slot

/-- A slot that is not listed, or is listed as a dot, but is taken for contents: a long-name slot or
a label, or an entry whose short name is another one. -/
def Stray (slots : List (Position × ByteMemory)) : Prop :=
  (∃ q ∈ beforeEnd slots, (kindOf q.2 = .long ∨ kindOf q.2 = .label) ∧ ¬ dotLike q.2) ∨
    ∃ e ∈ visible lfnReset slots, IsDots e.shown ∧ ¬ dotLike e.slot

theorem emptyStep_scan (slots : List (Position × ByteMemory)) :
    (scan (fun q s => emptyStep q.1 q.2 s) slots ()).finish (fun _ => true)=true ↔
      ∀ q ∈ beforeEnd slots, kindOf q.2 = .deleted ∨ dotLike q.2 := by
  induction slots with
  | nil => simp [beforeEnd,Step.finish]
  | cons q slots ih =>
    rw [beforeEnd,scan,emptyStep]
    by_cases hfinish : kindOf q.2 = .finish
    · rw [if_pos (kindOf_finish.mp hfinish),takeWhile_cons_of_neg (by simp [hfinish])]
      simp [Step.finish]
    rw [if_neg (fun h => hfinish (kindOf_finish.mpr h)),
      takeWhile_cons_of_pos (by simp [hfinish]),forall_mem_cons]
    by_cases hdeleted : kindOf q.2 = .deleted
    · rw [if_pos (kindOf_deleted.mp hdeleted)]
      exact ih.trans (by simp [hdeleted,beforeEnd])
    rw [if_neg (fun h => hdeleted (kindOf_deleted.mpr h))]
    by_cases hdot : dotLike q.2
    · rw [if_pos hdot]
      exact ih.trans (by simp [hdot,beforeEnd])
    · rw [if_neg hdot]
      simp [Step.finish,hdeleted,hdot]

theorem visible_of_entry {q : Position × ByteMemory}
    (hq : q ∈ beforeEnd slots) (hkind : kindOf q.2 = .entry) (lfn : LfnState) :
    ∃ e ∈ visible lfn slots, e.slot=q.2 := by
  induction slots generalizing lfn with
  | nil => cases hq
  | cons r slots ih =>
    rw [beforeEnd] at hq
    by_cases hfinish : kindOf r.2 = .finish
    · rw [takeWhile_cons_of_neg (by simp [hfinish])] at hq
      cases hq
    rw [takeWhile_cons_of_pos (by simp [hfinish])] at hq
    rw [visible,if_neg hfinish]
    obtain rfl | hq := mem_cons.mp hq
    · rw [if_pos hkind]
      exact ⟨_,mem_cons_self,rfl⟩
    · obtain ⟨e,he,heq⟩ := ih hq (lfnStep lfn r.2)
      exact ⟨e,mem_append_right _ he,heq⟩

theorem beforeEnd_of_visible {e : Visible} {lfn : LfnState}
    (h : e ∈ visible lfn slots) : (e.place,e.slot) ∈ beforeEnd slots := by
  induction slots generalizing lfn with
  | nil => cases h
  | cons r slots ih =>
    rw [visible] at h
    rw [beforeEnd]
    by_cases hfinish : kindOf r.2 = .finish
    · rw [if_pos hfinish] at h
      cases h
    rw [if_neg hfinish] at h
    rw [takeWhile_cons_of_pos (by simp [hfinish])]
    obtain h | h := mem_append.mp h
    · split_ifs at h
      · rw [mem_singleton.mp h]
        exact mem_cons_self
      · cases h
    · exact mem_cons_of_mem r (ih h)

/-- Nothing but the dots is listed exactly if there is no ordinary entry and no hidden one. -/
theorem onlyDots_visible :
    (∀ e ∈ visible lfnReset slots, IsDots e.shown) ↔ ¬ Ordinary slots ∧ ¬ Hidden slots := by
  constructor
  · intro hall
    refine ⟨?_,?_⟩ <;> rintro ⟨e,he,hnot,-⟩ <;> exact hnot (hall e he)
  · rintro ⟨hordinary,hhidden⟩ e he
    by_contra hnot
    by_cases hdot : dotLike e.slot
    · exact hhidden ⟨e,he,hnot,hdot⟩
    · exact hordinary ⟨e,he,hnot,hdot⟩

/-- Nothing is left exactly if there is no ordinary entry and no stray slot. -/
theorem nothingLeft_iff :
    (∀ q ∈ beforeEnd slots, kindOf q.2 = .deleted ∨ dotLike q.2) ↔
      ¬ Ordinary slots ∧ ¬ Stray slots := by
  constructor
  · intro hall
    have hentry : ∀ e ∈ visible lfnReset slots, dotLike e.slot := by
      intro e he
      obtain hdeleted | hdot := hall _ (beforeEnd_of_visible he)
      · rw [(mem_visible he).2] at hdeleted
        cases hdeleted
      · exact hdot
    refine ⟨fun hordinary => ?_,?_⟩
    · obtain ⟨e,he,-,hnot⟩ := hordinary
      exact hnot (hentry e he)
    rintro (⟨q,hq,hkind,hnot⟩ | ⟨e,he,-,hnot⟩)
    · obtain hdeleted | hdot := hall q hq
      · rw [hdeleted] at hkind
        simp at hkind
      · exact hnot hdot
    · exact hnot (hentry e he)
  · rintro ⟨hordinary,hstray⟩ q hq
    by_contra hleft
    rw [not_or] at hleft
    cases hkind : kindOf q.2 with
    | finish =>
      have hp := mem_takeWhile_imp hq
      rw [hkind] at hp
      simp at hp
    | deleted => exact hleft.1 hkind
    | long => exact hstray (.inl ⟨q,hq,.inl hkind,hleft.2⟩)
    | label => exact hstray (.inl ⟨q,hq,.inr hkind,hleft.2⟩)
    | entry =>
      obtain ⟨e,he,heq⟩ := visible_of_entry hq hkind lfnReset
      rw [← heq] at hleft
      by_cases hdots : IsDots e.shown
      · exact hstray (.inr ⟨e,he,hdots,hleft.2⟩)
      · exact hordinary ⟨e,he,hdots,hleft.2⟩

end Emptiness

section Removal

variable {v : Volume} {d : Disk} {path : Name} {directory : Nat}

/-- `fat32_readdir` lists nothing but `.` and `..`. -/
def OnlyDots (v : Volume) (path : Name) (d : Disk) : Prop :=
  ∀ index e, fat32Readdir v path index d=some (some e) → IsDots e.name

theorem onlyDots_iff
    (hpath : resolveDirectory v path d=some directory)
    (hread : ∀ p ∈ dirPositions v d directory, p.sector<d.sectors) :
    OnlyDots v path d ↔ ∀ e ∈ visible lfnReset (dirSlots v d directory), IsDots e.shown := by
  have hcall : ∀ index, fat32Readdir v path index d =
      some ((visible lfnReset (dirSlots v d directory))[index]?.map
        (fun e => direntOf e.decoder e.slot)) := by
    intro index
    rw [fat32Readdir,hpath]
    dsimp only
    rw [readdirIn_eq hread,listing,List.getElem?_map,Option.map_map]
    rfl
  constructor
  · intro h e he
    obtain ⟨index,hindex⟩ := mem_iff_getElem?.mp he
    refine h index (direntOf e.decoder e.slot) ?_
    rw [hcall,hindex]
    rfl
  · intro h index e he
    rw [hcall,Option.some.injEq,Option.map_eq_some_iff] at he
    obtain ⟨x,hx,rfl⟩ := he
    exact h x (mem_of_getElem? hx)

/-- What was removed from a directory stays removed while its slots stay. -/
theorem EntryRemoved.same {target : Position} {d' d'' : Disk} (h : v.Sound)
    (hdir : DirectoryChain v d' directory)
    (hpos : dirPositions v d' directory=dirPositions v d directory)
    (hremoved : EntryRemoved v directory target d d') (hsame : SameDirectory v d' d'' directory) :
    EntryRemoved v directory target d d'' where
  listing := by
    obtain ⟨before,e,after,hold,hnew⟩ := hremoved.listing
    exact ⟨before,e,after,hold,by rw [hsame.dirSlots_eq,hnew]⟩
  readdir index := by
    rw [hsame.readdirIn h hdir,hsame.dirSlots_eq]
    exact hremoved.readdir index
  others entry hentry hne p hp := by
    have hin : p ∈ dirPositions v d directory := by
      obtain hp | hp := (nameSlots_subset hentry).2 p hp
      · cases hp
      · rw [map_dirSlots] at hp
        exact hp
    rw [hsame.slots p (hpos ▸ hin)]
    exact hremoved.others entry hentry hne p hp

/-- The entry at the end of a path, as `fat32_remove_directory` looks it up. -/
theorem resolve_last
    (hpath : resolveDirectory v path d=some directory) (hlength : path.length≤fsPathMax)
    (hparts : pathParts path≠[]) (hleaf : (pathParts path).getLast hparts≠[dot]) :
    ∃ parent leaf p e target, splitParent path=some (parent,leaf) ∧
      resolveDirectory v parent d=some p ∧ findEntry v p leaf d=some (e,target) ∧
      e.isDirectory=true ∧ 2≤e.cluster ∧ e.cluster=directory := by
  have hsplit := (dropLast_append_getLast hparts).symm
  generalize (pathParts path).getLast hparts=leaf at hsplit hleaf
  rw [resolveDirectory,hsplit,resolveParts_append,Option.bind_eq_some_iff] at hpath
  obtain ⟨p,hparent,hlast⟩ := hpath
  rw [resolveParts] at hlast
  split_ifs at hlast with hlong hdots
  cases hfind : findEntry v p leaf d with
  | none =>
    rw [hfind] at hlast
    cases hlast
  | some found =>
    obtain ⟨e,target⟩ := found
    rw [hfind] at hlast
    dsimp only at hlast
    split_ifs at hlast with hbad
    rw [not_or] at hbad
    obtain ⟨parent,hcall,hparent'⟩ :=
      splitParent_of_parts hsplit hlength (Nat.not_le.mp hlong)
    refine ⟨parent,leaf,p,e,target,hcall,?_,hfind,bne_iff_ne.mpr hbad.1,Nat.not_lt.mp hbad.2,?_⟩
    · rw [resolveDirectory,hparent',hparent]
    · cases hlast
      rfl

/-- What `fat32_remove_directory` is to leave: the clusters free and the entry gone. -/
structure DirectoryRemoved (v : Volume) (path : Name) (directory : Nat) (d d' : Disk) : Prop where
  freed : ∀ cs, Chain v d cs directory → ∀ c ∈ cs, nextCluster v c d'=0
  entry : ∃ parent leaf p e target, splitParent path=some (parent,leaf) ∧
    resolveDirectory v parent d=some p ∧ findEntry v p leaf d=some (e,target) ∧
    e.cluster=directory ∧ EntryRemoved v p target d d'

/-- The two verdicts agree if something is seen by both, or what only one sees is there for both. -/
theorem verdicts_agree {both first second : Prop} :
    (¬ both ∧ ¬ first ↔ ¬ both ∧ ¬ second) ↔ both ∨ (first ↔ second) := by
  tauto

/-- A path that `resolve_directory` takes and `fat32_remove_directory` does not: it is too long for
`split_parent`, or ends in `.`, which `find_entry` does not find. -/
def Refused (path : Name) : Prop := fsPathMax<path.length ∨ (pathParts path).getLast? = some [dot]

theorem removeDirectory_refused (rounds : Nat)
    (hpath : resolveDirectory v path d=some directory) (hrefused : Refused path)
    (hdot : findEntry v directory [dot] d=none) :
    removeDirectory v rounds path d=some (false,d) := by
  rw [removeDirectory]
  by_cases hlong : fsPathMax<path.length
  · rw [splitParent,if_pos (.inr hlong)]
  have hsplit := (dropLast_append_getLast? _ (hrefused.resolve_left hlong)).symm
  obtain ⟨parent,hcall,hparts⟩ := splitParent_of_parts hsplit (Nat.not_lt.mp hlong) (by decide)
  have hparent : resolveDirectory v parent d=some directory := by
    rw [resolveDirectory,hsplit,resolveParts_append,Option.bind_eq_some_iff] at hpath
    obtain ⟨p,hfirst,hlast⟩ := hpath
    rw [resolveParts,if_neg (by decide),if_pos rfl] at hlast
    rw [resolveDirectory,hparts,hfirst]
    exact hlast
  rw [hcall]
  dsimp only
  rw [hparent]
  dsimp only
  rw [hdot]

end Removal

section Samples

/-- The entry of a directory with a name of one or two characters. -/
def dirSlot (first second cluster : UInt8) : ByteMemory := fun i =>
  if i=0 then first
  else if i=1 then second
  else if i<11 then space
  else if i=11 then 0x10
  else if i=26 then cluster
  else 0

/-- The root holds the directory `A`, which holds the dot entries and one more slot. -/
def treeDisk (third : ByteMemory) : Disk :=
  ⟨4,fun s i =>
    if s<2 then 0xFF
    else if s=2 then if i<32 then dirSlot 65 space 3 i else 0
    else if i<32 then dirSlot dot space 3 i
    else if i<64 then dirSlot dot dot 2 (i-32)
    else if i<96 then third (i-64)
    else 0⟩

variable {third : ByteMemory}

theorem treeDisk_chain {c : Nat} (hc : c=2 ∨ c=3) :
    FileChain sampleVolume (treeDisk third) c [c] := by
  refine sampleVolume_chain rfl hc ?_
  have hfat : (treeDisk third).data 1=fun _ => 0xFF := rfl
  have hdata : sampleVolume.dataStartSector≤(treeDisk third).sectors := by
    show 2≤4
    decide
  have hsector : fatSector sampleVolume 0 c=1 := by
    obtain rfl | rfl := hc <;> decide
  rw [nextCluster_eq sampleVolume_sound hdata (show c<128 by omega),hsector,hfat]
  obtain rfl | rfl := hc <;> decide

theorem treeDisk_wellFormed
    (hroot : (members sampleVolume (treeDisk third) 2).map (fun m => (m.place,m.entry)) =
      [(⟨2,0⟩,⟨3,0,0x10⟩)])
    (hchild : (members sampleVolume (treeDisk third) 3).length=0) :
    WellFormed sampleVolume (treeDisk third) :=
  wellFormed_of_single sampleVolume_sound (by show 2≤4; decide) hroot (fun _ => hchild)
    (treeDisk_chain (.inl rfl)) (treeDisk_chain (.inr rfl)) (by decide) (by decide)

end Samples

end ConeOS.Fat32
