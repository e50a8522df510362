import ConeOS.Fat32.Paths

namespace ConeOS.Fat32

open ConeOS.Library List
open ConeOS.Fs (direntNameMax)
open ConeOS.Vfs (dot fsPathMax)

section Chains

variable {v : Volume} {d d' : Disk} {cs : List Nat} {c : Nat}

/-- The clusters from a first one to an end-of-chain mark. -/
def Chain (v : Volume) (d : Disk) : List Nat → Nat → Prop
  | [], c => endOfChain≤c
  | x :: cs, c => x=c ∧ 2≤c ∧ c<endOfChain ∧ Chain v d cs (nextCluster v c d)

/-- A chain whose clusters have entries in the FAT and sectors on the device, each once. -/
structure FileChain (v : Volume) (d : Disk) (first : Nat) (cs : List Nat) : Prop where
  links : Chain v d cs first
  entries : ∀ c ∈ cs, v.Entry c
  inside : ∀ c ∈ cs, v.Inside d c
  nodup : cs.Nodup

theorem Chain.visited (h : Chain v d cs c) (rounds : Nat) :
    visitedClusters v d rounds c=cs.take rounds := by
  induction cs generalizing c rounds with
  | nil =>
    have hend : endOfChain≤c := h
    cases rounds with
    | zero => rfl
    | succ rounds => rw [visitedClusters,if_neg (by omega),take_nil]
  | cons x cs ih =>
    obtain ⟨rfl,hlow,hhigh,hrest⟩ := h
    cases rounds with
    | zero => rfl
    | succ rounds => rw [visitedClusters,if_pos ⟨hlow,hhigh⟩,ih hrest,take_succ_cons]

theorem Chain.congr (h : Chain v d cs c)
    (hnext : ∀ x ∈ cs, nextCluster v x d'=nextCluster v x d) : Chain v d' cs c := by
  induction cs generalizing c with
  | nil => exact h
  | cons x cs ih =>
    obtain ⟨rfl,hlow,hhigh,hrest⟩ := h
    refine ⟨rfl,hlow,hhigh,?_⟩
    rw [hnext x mem_cons_self]
    exact ih hrest (fun y hy => hnext y (mem_cons_of_mem x hy))

theorem Chain.unique {cs' : List Nat} (h : Chain v d cs c) (h' : Chain v d cs' c) : cs=cs' := by
  induction cs generalizing c cs' with
  | nil =>
    have hend : endOfChain≤c := h
    cases cs' with
    | nil => rfl
    | cons x cs' =>
      have := h'.2.2.1
      omega
  | cons x cs ih =>
    obtain ⟨rfl,-,hhigh,hrest⟩ := h
    cases cs' with
    | nil =>
      have hend : endOfChain≤x := h'
      omega
    | cons y cs' =>
      obtain ⟨rfl,-,-,hrest'⟩ := h'
      rw [ih hrest hrest']

theorem Chain.lt (h : Chain v d cs c) : ∀ x ∈ cs, x<endOfChain := by
  induction cs generalizing c with
  | nil => simp
  | cons y cs ih =>
    obtain ⟨rfl,-,hhigh,hrest⟩ := h
    intro x hx
    obtain rfl | hx := mem_cons.mp hx
    · exact hhigh
    · exact ih hrest x hx

theorem Chain.next_ne_zero (h : Chain v d cs c) : ∀ x ∈ cs, nextCluster v x d≠0 := by
  induction cs generalizing c with
  | nil => simp
  | cons x cs ih =>
    obtain ⟨rfl,-,-,hrest⟩ := h
    intro y hy
    obtain rfl | hy := mem_cons.mp hy
    · cases cs with
      | nil =>
        have hend : endOfChain≤nextCluster v y d := hrest
        intro hzero
        rw [hzero,endOfChain] at hend
        omega
      | cons z cs =>
        have hlow := hrest.2.1
        omega
    · exact ih hrest y hy

theorem FileChain.directory (h : FileChain v d c cs) : DirectoryChain v d c := by
  have hvisited := h.links.visited chainLimit
  refine ⟨?_,?_,?_⟩
  · rw [hvisited]
    exact fun x hx => h.entries x (mem_of_mem_take hx)
  · rw [hvisited]
    exact fun x hx => h.inside x (mem_of_mem_take hx)
  · rw [hvisited]
    exact h.nodup.sublist (take_sublist _ _)

theorem FileChain.length_lt (h : FileChain v d c cs) : cs.length≤endOfChain := by
  have hsub : cs ⊆ List.range endOfChain := fun x hx => mem_range.mpr (h.links.lt x hx)
  have hle := (subperm_of_subset h.nodup hsub).length_le
  rwa [length_range] at hle

end Chains

section Edits

variable {v : Volume} {d d' : Disk} {directory : Nat}

/-- What a change of the FAT entries of the clusters in `S` leaves. -/
structure FatEdit (v : Volume) (S : Nat → Prop) (d d' : Disk) : Prop where
  sectors : d'.sectors=d.sectors
  data : ∀ s, v.dataStartSector ≤ s → d'.data s=d.data s
  others : ∀ c<v.fatSectors*128, ¬ S c → nextCluster v c d'=nextCluster v c d

theorem FatEdit.refl (v : Volume) (S : Nat → Prop) (d : Disk) : FatEdit v S d d :=
  ⟨rfl,fun _ _ => rfl,fun _ _ _ => rfl⟩

theorem FatEdit.trans {S T U : Nat → Prop} {d'' : Disk} (h : FatEdit v S d d')
    (h' : FatEdit v T d' d'') (hS : ∀ c<v.fatSectors*128, S c → U c)
    (hT : ∀ c<v.fatSectors*128, T c → U c) : FatEdit v U d d'' where
  sectors := h'.sectors.trans h.sectors
  data s hs := (h'.data s hs).trans (h.data s hs)
  others c hc hU := (h'.others c hc (fun ht => hU (hT c hc ht))).trans
    (h.others c hc (fun hs => hU (hS c hc hs)))

theorem FatUpdated.fatEdit {cluster value : Nat} (h : v.Sound)
    (hfat : v.dataStartSector≤d.sectors) (hcluster : cluster<v.fatSectors*128)
    (hup : FatUpdated v cluster value (fun copy => copy<v.fatCount) d d') :
    FatEdit v (· = cluster) d d' where
  sectors := hup.sectors
  data _ hs := hup.data h hcluster hs
  others c hc hne := by rw [hup.nextCluster h hfat hcluster hc,if_neg hne]

/-- A cluster is allocated and linked behind another one, or there is none. -/
theorem linkCluster_spec (h : v.Sound) (hfat : v.dataStartSector≤d.sectors) {last : Nat}
    (hlast : v.Entry last) :
    (∃ c d₁ d₂, allocateCluster v d=(c,d₁) ∧ FirstFree v d c ∧
      updateFat v last c d₁=(true,d₂) ∧ d₂.sectors=d.sectors ∧
      (∀ s, v.dataStartSector ≤ s → d₂.data s=d.data s) ∧
      ∀ x<v.fatSectors*128, nextCluster v x d₂ =
        if x=last then c%2 ^ 28 else if x=c then 0x0FFFFFFF else nextCluster v x d) ∨
    allocateCluster v d=(0,d) ∧ ∀ c, v.Entry c → nextCluster v c d≠0 := by
  obtain ⟨c,d₁,halloc,hfirst,hup⟩ | hnone := allocateCluster_spec h hfat
  · have hc := hfirst.entry
    have hfat₁ : v.dataStartSector≤d₁.sectors := by
      rw [hup.sectors]
      exact hfat
    obtain ⟨d₂,hcall,hup₂⟩ := updateFat_spec h hfat₁ hlast.2 c
    refine .inl ⟨c,d₁,d₂,halloc,hfirst,hcall,hup₂.sectors.trans hup.sectors,?_,?_⟩
    · intro s hs
      rw [hup₂.data h hlast.2 hs,hup.data h hc.2 hs]
    · intro x hx
      have hend : 0x0FFFFFFF%2 ^ 28=0x0FFFFFFF := by decide
      rw [hup₂.nextCluster h hfat₁ hlast.2 hx,hup.nextCluster h hfat hc.2 hx,hend]
  · exact .inr hnone

/-- A directory that an edit elsewhere has left as it was. -/
structure SameDirectory (v : Volume) (d d' : Disk) (directory : Nat) : Prop where
  sectors : d'.sectors=d.sectors
  visited : visitedClusters v d' chainLimit directory=visitedClusters v d chainLimit directory
  slots : ∀ p ∈ dirPositions v d directory, slotAt d' p=slotAt d p

theorem SameDirectory.dirSlots_eq (h : SameDirectory v d d' directory) :
    dirSlots v d' directory=dirSlots v d directory := by
  rw [dirSlots,dirSlots,dirPositions,h.visited,← dirPositions]
  refine map_congr_left (fun p hp => ?_)
  rw [h.slots p hp]

theorem SameDirectory.chain (h : SameDirectory v d d' directory)
    (hdir : DirectoryChain v d directory) : DirectoryChain v d' directory := by
  refine ⟨?_,?_,?_⟩
  · rw [h.visited]
    exact hdir.entries
  · rw [h.visited]
    intro c hc
    rw [Volume.Inside,h.sectors]
    exact hdir.inside c hc
  · rw [h.visited]
    exact hdir.nodup

theorem SameDirectory.scan {σ β : Type} (h : SameDirectory v d d' directory) (hv : v.Sound)
    (hdir : DirectoryChain v d directory) (body : SlotBody σ β) (failed : β) (last : σ → β)
    (s : σ) :
    scanDirectory v d' body failed last directory s =
      scanDirectory v d body failed last directory s := by
  rw [scanDirectory_eq ((h.chain hdir).readable hv),scanDirectory_eq (hdir.readable hv),
    h.dirSlots_eq]

theorem SameDirectory.findEntry (h : SameDirectory v d d' directory) (hv : v.Sound)
    (hdir : DirectoryChain v d directory) (name : Name) :
    findEntry v directory name d'=findEntry v directory name d := h.scan hv hdir ..

theorem SameDirectory.readdirIn (h : SameDirectory v d d' directory) (hv : v.Sound)
    (hdir : DirectoryChain v d directory) (index : Nat) :
    readdirIn v directory index d'=readdirIn v directory index d := h.scan hv hdir ..

/-- What a change of the FAT entries and the data of the clusters in `S` leaves. -/
structure ClusterEdit (v : Volume) (S : Nat → Prop) (d d' : Disk) : Prop where
  sectors : d'.sectors=d.sectors
  others : ∀ c<v.fatSectors*128, ¬ S c → nextCluster v c d'=nextCluster v c d
  data : ∀ c, v.Entry c → ¬ S c → ∀ s, clusterSector v c ≤ s →
    s<clusterSector v c+v.sectorsPerCluster → d'.data s=d.data s

theorem FatEdit.clusters {S : Nat → Prop} (h : FatEdit v S d d') (hv : v.Sound) :
    ClusterEdit v S d d' where
  sectors := h.sectors
  others := h.others
  data c hc _ s hs _ := by
    have := hv.clusterSector_eq hc
    exact h.data s (by omega)

theorem ClusterEdit.same {S : Nat → Prop} (h : ClusterEdit v S d d') (hv : v.Sound)
    (hdir : DirectoryChain v d directory)
    (hout : ∀ c ∈ visitedClusters v d chainLimit directory, ¬ S c) :
    SameDirectory v d d' directory where
  sectors := h.sectors
  visited := visitedClusters_congr
    (fun c hc => h.others c (hdir.entries c hc).2 (hout c hc))
  slots p hp := by
    obtain ⟨c,hc,hp⟩ := mem_flatMap.mp hp
    have hentry := hdir.entries c hc
    obtain ⟨hle,hlt,-⟩ := (hv.mem_clusterPositions hentry).mp hp
    rw [slotAt,slotAt,h.data c hentry (hout c hc) _ hle hlt]

end Edits

section Freeing

/-- The loop of `fat32_unlink_file`, `fat32_remove_directory` and `fat32_write_file` that frees the
clusters of a chain from one on, on a device that may fail; `none` stands for rounds used up. -/
def freeChainOn {δ : Type} (v : Volume) (D : Device δ) : Nat → Nat → δ → Option (Bool × δ)
  | 0, _, _ => none
  | rounds+1, cluster, d =>
    if 2≤cluster ∧ cluster<endOfChain then
      let (next,d) := nextClusterOn v D cluster d
      match updateFatOn v D cluster 0 d with
      | (true,d) => freeChainOn v D rounds next d
      | (false,d) => some (false,d)
    else some (true,d)

def freeChain (v : Volume) (rounds cluster : Nat) (d : Disk) : Option (Bool × Disk) :=
  freeChainOn v diskDevice rounds cluster d

theorem freeChain_succ (v : Volume) (rounds cluster : Nat) (d : Disk) :
    freeChain v (rounds+1) cluster d =
      if 2≤cluster ∧ cluster<endOfChain then
        match updateFat v cluster 0 d with
        | (true,d') => freeChain v rounds (nextCluster v cluster d) d'
        | (false,d') => some (false,d')
      else some (true,d) := by
  have hnext : nextClusterOn v diskDevice cluster d=(nextCluster v cluster d,d) := by
    rw [nextCluster,nextClusterOn]
    dsimp only [diskDevice]
    cases blockReadSector (fatSector v 0 cluster) d <;> rfl
  rw [freeChain,freeChainOn,hnext]
  dsimp only
  rw [← updateFat]
  cases updateFat v cluster 0 d with
  | mk ok d' => cases ok <;> rfl

variable {v : Volume} {d : Disk} {cs : List Nat} {first : Nat}

/-- A chain is freed, and no other cluster. -/
theorem freeChain_spec (h : v.Sound) (hfat : v.dataStartSector≤d.sectors)
    (hchain : Chain v d cs first) (hentries : ∀ c ∈ cs, v.Entry c) (hnodup : cs.Nodup)
    {rounds : Nat} (hrounds : cs.length<rounds) :
    ∃ d', freeChain v rounds first d=some (true,d') ∧ FatEdit v (· ∈ cs) d d' ∧
      ∀ c ∈ cs, nextCluster v c d'=0 := by
  induction cs generalizing first d rounds with
  | nil =>
    obtain ⟨rounds,rfl⟩ := Nat.exists_eq_add_of_lt hrounds
    have hend : endOfChain≤first := hchain
    refine ⟨d,?_,FatEdit.refl v _ d,by simp⟩
    rw [freeChain_succ,if_neg (by omega)]
  | cons x cs ih =>
    obtain ⟨rfl,hlow,hhigh,hrest⟩ := hchain
    obtain ⟨rounds,rfl⟩ := Nat.exists_eq_add_of_lt hrounds
    have hx := (hentries x mem_cons_self).2
    have hout : x ∉ cs := (nodup_cons.mp hnodup).1
    obtain ⟨d₁,hcall,hup⟩ := updateFat_spec h hfat hx 0
    have hedit := hup.fatEdit h hfat hx
    have hfat₁ : v.dataStartSector≤d₁.sectors := by
      rw [hup.sectors]
      exact hfat
    have hrest₁ : Chain v d₁ cs (nextCluster v x d) := by
      refine hrest.congr (fun y hy => hedit.others y ?_ ?_)
      · exact (hentries y (mem_cons_of_mem x hy)).2
      · rintro rfl
        exact hout hy
    have hleft : cs.length<(x :: cs).length+rounds := by
      rw [length_cons]
      omega
    obtain ⟨d',hfree,hedit',hzero⟩ := ih hfat₁ hrest₁
      (fun y hy => hentries y (mem_cons_of_mem x hy)) (nodup_cons.mp hnodup).2 hleft
    refine ⟨d',?_,hedit.trans hedit' ?_ ?_,?_⟩
    · rw [freeChain_succ,if_pos ⟨hlow,hhigh⟩,hcall]
      exact hfree
    · rintro c - rfl
      exact mem_cons_self
    · exact fun c _ hc => mem_cons_of_mem x hc
    intro c hc
    obtain rfl | hc := mem_cons.mp hc
    · rw [hedit'.others c hx hout,hup.nextCluster h hfat hx hx,if_pos rfl,Nat.zero_mod]
    · exact hzero c hc

end Freeing

section Entries

variable {name : Name}

/-- The entries `.` and `..`, which have no long name. -/
def Visible.isDot (e : Visible) : Bool :=
  (lfnDecode e.decoder e.slot direntNameMax).isNone &&
    (shortText e.slot == [dot] || shortText e.slot == [dot,dot])

def Visible.entry (e : Visible) : Fat32Entry := entryOf e.slot

def Fat32Entry.isDirectory (e : Fat32Entry) : Bool := e.attributes &&& 0x10 != 0

/-- The files and directories that have their entry in a directory. -/
def members (v : Volume) (d : Disk) (directory : Nat) : List Visible :=
  (visible lfnReset (dirSlots v d directory)).filter (fun e => !e.isDot)

theorem mem_visible {lfn : LfnState} {slots : List (Position × ByteMemory)} {e : Visible}
    (h : e ∈ visible lfn slots) : (e.place,e.slot) ∈ slots ∧ kindOf e.slot = .entry := by
  induction slots generalizing lfn with
  | nil => cases h
  | cons q slots ih =>
    rw [visible] at h
    split_ifs at h with hfinish hentry
    · cases h
    · obtain h | h := mem_append.mp h
      · rw [mem_singleton.mp h]
        exact ⟨mem_cons_self,hentry⟩
      · exact ⟨mem_cons_of_mem q (ih h).1,(ih h).2⟩
    · exact ⟨mem_cons_of_mem q (ih h).1,(ih h).2⟩

theorem upper_ne {c x : UInt8} (h : c≠x) (hx : x.toNat<65) : upper c≠x := by
  rw [upper]
  split_ifs with hc
  · intro heq
    have hle : (32 : UInt8)≤c := UInt8.le_iff_toNat_le.mpr ((by decide : 32≤97).trans hc.1)
    rw [← heq,UInt8.toNat_sub_of_le _ _ hle] at hx
    have h32 : (32 : UInt8).toNat=32 := rfl
    omega
  · exact h

theorem shortNameLoop_first {result result' : ByteMemory} {target target' : Nat}
    {extension extension' : Bool} (ht : 0<target)
    (h : shortNameLoop name result target extension=some (result',target',extension')) :
    result' 0=result 0 := by
  induction name generalizing result target extension with
  | nil =>
    cases h
    rfl
  | cons c name ih =>
    rw [shortNameLoop] at h
    split_ifs at h
    · exact ih (by decide) h
    · rw [ih (by omega) h,Function.update_of_ne (by omega)]

/-- No name gives a short name that begins with a dot or a space. -/
theorem shortName_first {wanted : ByteMemory} (h : shortName name=some wanted) :
    wanted 0≠dot ∧ wanted 0≠space := by
  rw [shortName] at h
  cases name with
  | nil => cases h
  | cons c name =>
    rw [if_neg (by simp)] at h
    cases hloop : shortNameLoop (c :: name) (fun _ => space) 0 false with
    | none =>
      rw [hloop] at h
      cases h
    | some r =>
      obtain ⟨result,target,extension⟩ := r
      rw [hloop] at h
      dsimp only at h
      split_ifs at h
      cases h
      rw [shortNameLoop] at hloop
      by_cases hdot : c=dot
      · rw [if_pos hdot,if_pos (.inr rfl)] at hloop
        cases hloop
      rw [if_neg hdot,if_neg (by simp)] at hloop
      split_ifs at hloop with hchar
      have hfirst := shortNameLoop_first (by decide) hloop
      rw [Function.update_self] at hfirst
      rw [hfirst]
      refine ⟨upper_ne hdot (by decide),?_⟩
      intro hspace
      rw [hspace] at hchar
      exact hchar (.inl (by decide))

theorem sameShort_first {a b : ByteMemory} (h : sameShort a b=true) : a 0=b 0 := by
  rw [sameShort,all_eq_true] at h
  exact eq_of_beq (h 0 (by decide))

theorem shortText_not_dots {short : ByteMemory} (h : short 0≠dot ∧ short 0≠space) :
    (shortText short == [dot] || shortText short == [dot,dot])=false := by
  have htext : ∃ rest, shortText short=short 0 :: rest := by
    rw [shortText,fieldText,range_succ_eq_map,map_cons,takeWhile_cons_of_pos]
    · exact ⟨_,rfl⟩
    · exact decide_eq_true h.2
  obtain ⟨rest,htext⟩ := htext
  rw [htext]
  simp [h.1]

/-- The entry that `find_entry` gives is one of the members. -/
theorem findEntry_member {v : Volume} {d : Disk} {directory : Nat} {e : Fat32Entry}
    {target : Position} (hread : ∀ p ∈ dirPositions v d directory, p.sector<d.sectors)
    (h : findEntry v directory name d=some (e,target)) :
    ∃ m ∈ members v d directory, m.place=target ∧ m.entry=e := by
  rw [findEntry,scanDirectory_eq hread] at h
  obtain ⟨before,slot,after,hslots,hun,hkind,rfl,hmatch⟩ := findEntry_some h
  refine ⟨⟨target,lfnAfter before lfnReset,slot⟩,?_,rfl,rfl⟩
  rw [members,mem_filter]
  constructor
  · rw [hslots,visible_append hun,mem_append,visible,hkind]
    exact .inr mem_cons_self
  rw [Bool.not_eq_true',Visible.isDot,Bool.and_eq_false_iff]
  rw [matchesName,Bool.or_eq_true] at hmatch
  obtain hshort | hlong := hmatch
  · right
    cases hname : shortName name with
    | none =>
      rw [hname] at hshort
      cases hshort
    | some wanted =>
      rw [hname] at hshort
      have hfirst := shortName_first hname
      rw [← sameShort_first hshort] at hfirst
      exact shortText_not_dots hfirst
  · left
    cases hdecode : lfnDecode (lfnAfter before lfnReset) slot direntNameMax with
    | none =>
      rw [hdecode] at hlong
      cases hlong
    | some decoded => rfl

end Entries

section Volumes

variable {k : Option Position} {m : Visible} {as bs : List Nat} {p : Position}

/-- The directories of a volume: the root, and those that have an entry in another one, with the
place of that entry. -/
inductive DirectoryAt (v : Volume) (d : Disk) : Option Position → Nat → Prop
  | root : DirectoryAt v d none v.rootCluster
  | child {k : Option Position} {directory : Nat} {m : Visible} (hdir : DirectoryAt v d k directory)
      (hm : m ∈ members v d directory) (hattr : m.entry.isDirectory=true)
      (hcluster : 2 ≤ m.entry.cluster) : DirectoryAt v d (some m.place) m.entry.cluster

/-- Whatever has a chain: the root, and the files and directories with their entries. -/
inductive Holder (v : Volume) (d : Disk) : Option Position → Nat → Prop
  | root : Holder v d none v.rootCluster
  | member {k : Option Position} {directory : Nat} {m : Visible}
      (hdir : DirectoryAt v d k directory) (hm : m ∈ members v d directory)
      (hcluster : 2 ≤ m.entry.cluster) : Holder v d (some m.place) m.entry.cluster

theorem DirectoryAt.holder {v : Volume} {d : Disk} {directory : Nat}
    (h : DirectoryAt v d k directory) : Holder v d k directory := by
  cases h with
  | root => exact .root
  | child hdir hm _ hcluster => exact .member hdir hm hcluster

/-- The chains of the root and of all entries end in an end-of-chain mark, stay on the volume and
are disjoint, and a file's chain has room for its size. -/
structure WellFormed (v : Volume) (d : Disk) : Prop where
  sound : v.Sound
  fat : v.dataStartSector≤d.sectors
  chains : ∀ k c, Holder v d k c → ∃ cs, FileChain v d c cs
  apart : ∀ k c cs k' c' cs', Holder v d k c → Holder v d k' c' → k≠k' → FileChain v d c cs →
    FileChain v d c' cs' → ∀ x ∈ cs, x ∉ cs'
  sizes : ∀ k directory m cs, DirectoryAt v d k directory → m ∈ members v d directory →
    m.entry.isDirectory=false → FileChain v d m.entry.cluster cs →
    m.entry.size≤cs.length*(v.sectorsPerCluster*512)

variable {v : Volume} {d : Disk}

theorem WellFormed.directory (hwf : WellFormed v d) {directory : Nat}
    (h : DirectoryAt v d k directory) : DirectoryChain v d directory := by
  obtain ⟨cs,hcs⟩ := hwf.chains k directory h.holder
  exact hcs.directory

theorem mem_members {directory : Nat} (h : m ∈ members v d directory) :
    m.place ∈ dirPositions v d directory ∧ m.slot=slotAt d m.place := by
  have hmem := (mem_visible (mem_of_mem_filter h)).1
  obtain ⟨p,hp,heq⟩ := mem_map.mp hmem
  obtain ⟨rfl,hslot⟩ := Prod.mk.inj heq
  exact ⟨hp,hslot.symm⟩

theorem shared_cluster (h : v.Sound) {a b : Nat} (ha : FileChain v d a as)
    (hb : FileChain v d b bs) (hpa : p ∈ dirPositions v d a)
    (hpb : p ∈ dirPositions v d b) : ∃ x ∈ as, x ∈ bs := by
  obtain ⟨x,hx,hpx⟩ := mem_flatMap.mp hpa
  obtain ⟨y,hy,hpy⟩ := mem_flatMap.mp hpb
  have hxe := ha.directory.entries x hx
  have hye := hb.directory.entries y hy
  rw [ha.links.visited] at hx
  rw [hb.links.visited] at hy
  have hxy : x=y := by
    by_contra hne
    have := h.clusterSector_apart hxe hye hne
    have := (h.mem_clusterPositions hxe).mp hpx
    have := (h.mem_clusterPositions hye).mp hpy
    omega
  subst hxy
  exact ⟨x,mem_of_mem_take hx,mem_of_mem_take hy⟩

theorem WellFormed.entry_outside (hwf : WellFormed v d) {directory : Nat}
    (h : DirectoryAt v d k directory) (hp : p ∈ dirPositions v d directory) :
    k≠some p := by
  induction h generalizing p with
  | root => simp
  | @child k parent m hdir hm hattr hcluster ih =>
    rintro heq
    cases heq
    have hplace := (mem_members hm).1
    have hholder : Holder v d (some m.place) m.entry.cluster := .member hdir hm hcluster
    obtain ⟨as,has⟩ := hwf.chains _ _ hdir.holder
    obtain ⟨bs,hbs⟩ := hwf.chains _ _ hholder
    obtain ⟨x,hxa,hxb⟩ := shared_cluster hwf.sound has hbs hplace hp
    exact hwf.apart _ _ _ _ _ _ hdir.holder hholder (ih hplace) has hbs x hxa hxb

theorem WellFormed.apart_parent (hwf : WellFormed v d) {directory : Nat}
    (h : DirectoryAt v d k directory) (hm : m ∈ members v d directory)
    (hcluster : 2 ≤ m.entry.cluster) {cs : List Nat} (hcs : FileChain v d m.entry.cluster cs) :
    ∀ c ∈ visitedClusters v d chainLimit directory, c ∉ cs := by
  obtain ⟨as,has⟩ := hwf.chains _ _ h.holder
  intro c hc
  rw [has.links.visited] at hc
  exact hwf.apart _ _ _ _ _ _ h.holder (.member h hm hcluster)
    (hwf.entry_outside h (mem_members hm).1) has hcs c (mem_of_mem_take hc)

/-- A path that resolves names a directory of the volume. -/
theorem WellFormed.resolveParts (hwf : WellFormed v d) {parts : List Name}
    {current directory : Nat} (h : DirectoryAt v d k current)
    (hresolve : resolveParts v d parts current=some directory) :
    ∃ k', DirectoryAt v d k' directory := by
  induction parts generalizing k current with
  | nil =>
    cases hresolve
    exact ⟨k,h⟩
  | cons part parts ih =>
    rw [Fat32.resolveParts] at hresolve
    by_cases hlong : fsPathMax≤part.length
    · rw [if_pos hlong] at hresolve
      cases hresolve
    rw [if_neg hlong] at hresolve
    by_cases hdot : part=[dot]
    · rw [if_pos hdot] at hresolve
      exact ih h hresolve
    rw [if_neg hdot] at hresolve
    by_cases hdots : part=[dot,dot]
    · rw [if_pos hdots] at hresolve
      cases hresolve
    rw [if_neg hdots] at hresolve
    cases hfind : findEntry v current part d with
    | none =>
      rw [hfind] at hresolve
      cases hresolve
    | some found =>
      obtain ⟨e,target⟩ := found
      rw [hfind] at hresolve
      dsimp only at hresolve
      by_cases hbad : e.attributes &&& 0x10=0 ∨ e.cluster<2
      · rw [if_pos hbad] at hresolve
        cases hresolve
      rw [if_neg hbad] at hresolve
      rw [not_or] at hbad
      obtain ⟨m,hm,-,rfl⟩ := findEntry_member ((hwf.directory h).readable hwf.sound) hfind
      exact ih (.child h hm (bne_iff_ne.mpr hbad.1) (Nat.not_lt.mp hbad.2)) hresolve

theorem resolveParts_append {first rest : List Name} {current : Nat} :
    Fat32.resolveParts v d (first ++ rest) current =
      (Fat32.resolveParts v d first current).bind (Fat32.resolveParts v d rest) := by
  induction first generalizing current with
  | nil => rfl
  | cons part first ih =>
    rw [cons_append,Fat32.resolveParts,Fat32.resolveParts]
    split_ifs
    · rfl
    · exact ih
    · rfl
    cases findEntry v current part d with
    | none => rfl
    | some found =>
      dsimp only
      split_ifs
      · rfl
      · exact ih

/-- A volume with a single entry, in the root. -/
theorem wellFormed_of_single {e : Fat32Entry} (h : v.Sound)
    (hfat : v.dataStartSector≤d.sectors)
    (hroot : (members v d v.rootCluster).map (fun m => (m.place,m.entry))=[(p,e)])
    (hchild : e.isDirectory=true → (members v d e.cluster).length=0)
    (has : FileChain v d v.rootCluster as) (hbs : FileChain v d e.cluster bs)
    (hapart : ∀ x ∈ as, x ∉ bs)
    (hsize : e.isDirectory=false → e.size≤bs.length*(v.sectorsPerCluster*512)) :
    WellFormed v d := by
  have hone : ∀ m ∈ members v d v.rootCluster, m.place=p ∧ m.entry=e := by
    intro m hm
    have hmap := mem_map_of_mem (f := fun m : Visible => (m.place,m.entry)) hm
    rw [hroot,mem_singleton] at hmap
    exact Prod.mk.inj hmap
  have hdirs : ∀ k c, DirectoryAt v d k c →
      k=none ∧ c=v.rootCluster ∨ k=some p ∧ c=e.cluster ∧ e.isDirectory=true := by
    intro k c hdir
    induction hdir with
    | root => exact .inl ⟨rfl,rfl⟩
    | child hdir hm hattr _ ih =>
      obtain ⟨rfl,rfl⟩ | ⟨rfl,rfl,hchildren⟩ := ih
      · obtain ⟨hplace,hentry⟩ := hone _ hm
        rw [hentry] at hattr
        rw [hplace,hentry]
        exact .inr ⟨rfl,rfl,hattr⟩
      · rw [length_eq_zero_iff.mp (hchild hchildren)] at hm
        cases hm
  have hmember : ∀ k c m, DirectoryAt v d k c → m ∈ members v d c →
      m.place=p ∧ m.entry=e := by
    intro k c m hdir hm
    obtain ⟨-,rfl⟩ | ⟨-,rfl,hchildren⟩ := hdirs k c hdir
    · exact hone m hm
    · rw [length_eq_zero_iff.mp (hchild hchildren)] at hm
      cases hm
  have hholders : ∀ k c, Holder v d k c →
      k=none ∧ c=v.rootCluster ∨ k=some p ∧ c=e.cluster := by
    intro k c hk
    cases hk with
    | root => exact .inl ⟨rfl,rfl⟩
    | member hdir hm _ =>
      obtain ⟨hplace,hentry⟩ := hmember _ _ _ hdir hm
      rw [hplace,hentry]
      exact .inr ⟨rfl,rfl⟩
  refine ⟨h,hfat,?_,?_,?_⟩
  · intro k c hk
    obtain ⟨-,rfl⟩ | ⟨-,rfl⟩ := hholders k c hk
    · exact ⟨as,has⟩
    · exact ⟨bs,hbs⟩
  · intro k c cs k' c' cs' hk hk' hne hcs hcs' x hx hx'
    obtain ⟨rfl,rfl⟩ | ⟨rfl,rfl⟩ := hholders k c hk <;>
      obtain ⟨rfl,rfl⟩ | ⟨rfl,rfl⟩ := hholders k' c' hk'
    · exact hne rfl
    · rw [hcs.links.unique has.links] at hx
      rw [hcs'.links.unique hbs.links] at hx'
      exact hapart x hx hx'
    · rw [hcs.links.unique hbs.links] at hx
      rw [hcs'.links.unique has.links] at hx'
      exact hapart x hx' hx
    · exact hne rfl
  · intro k directory m cs hdir hm hattr hcs
    obtain ⟨-,hentry⟩ := hmember _ _ _ hdir hm
    rw [hentry] at hattr hcs ⊢
    rw [hcs.links.unique hbs.links]
    exact hsize hattr

theorem sampleVolume_sound : sampleVolume.Sound :=
  ⟨by decide,by decide,by decide,rfl,by decide,by decide⟩

theorem sampleVolume_chain {c : Nat} (hsectors : d.sectors=4) (hc : c=2 ∨ c=3)
    (hnext : nextCluster sampleVolume c d=0x0FFFFFFF) : FileChain sampleVolume d c [c] := by
  refine ⟨⟨rfl,by omega,by rw [endOfChain]; omega,?_⟩,?_,?_,nodup_singleton c⟩
  · rw [hnext,Chain]
    decide
  · intro x hx
    rw [mem_singleton.mp hx]
    exact ⟨by omega,show c<128 by omega⟩
  · intro x hx
    rw [mem_singleton.mp hx,Volume.Inside,hsectors]
    obtain rfl | rfl := hc <;> decide

end Volumes

end ConeOS.Fat32
