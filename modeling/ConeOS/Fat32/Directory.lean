import ConeOS.Fat32.Names
import ConeOS.Fs.Ramfs
import ConeOS.Library.Scan

namespace ConeOS.Fat32

open ConeOS.Library Function List
open ConeOS.Fs (direntNameMax FsDirent DirentType)

def chainLimit : Nat := 65536
def endOfChain : Nat := 0x0FFFFFF8

/-- The place of a 32-byte slot. -/
structure Position where
  sector : Nat
  offset : Nat
  deriving DecidableEq

/-- The slot at an offset of a sector. -/
def slotOf (data : ByteMemory) (offset : Nat) : ByteMemory := fun i =>
  if i<32 then data (offset+i) else 0

def slotAt (d : Disk) (p : Position) : ByteMemory := slotOf (d.data p.sector) p.offset

/-- `for (offset = 0; offset < 512; offset += 32)`. -/
def slotOffsets : List Nat := (List.range 16).map (· * 32)

section Scanning

variable {σ β : Type} (v : Volume) (d : Disk)

/-- The body of a loop over the slots of a directory. -/
abbrev SlotBody (σ β : Type) := Position → ByteMemory → σ → Step σ β

/-- The loops over the sectors of a cluster and the slots of each; a sector that cannot be read
ends the call with `failed`. -/
def scanCluster (body : SlotBody σ β) (failed : β) (cluster : Nat) (s : σ) : Step σ β :=
  scan (fun i s =>
    match blockReadSector (wrap (clusterSector v cluster+i)) d with
    | none => .stop failed
    | some data =>
      scan (fun offset s =>
        body ⟨wrap (clusterSector v cluster+i),offset⟩ (slotOf data offset) s) slotOffsets s)
    (List.range v.sectorsPerCluster) s

/-- The loop over the chain of a directory. -/
def scanChain (body : SlotBody σ β) (failed : β) : Nat → Nat → σ → Step σ β
  | 0, _, s => .next s
  | rounds+1, cluster, s =>
    if 2≤cluster ∧ cluster<endOfChain then
      match scanCluster v d body failed cluster s with
      | .next s => scanChain body failed rounds (nextCluster v cluster d) s
      | .stop b => .stop b
    else .next s

def scanDirectory (body : SlotBody σ β) (failed : β) (last : σ → β) (directory : Nat) (s : σ) : β :=
  (scanChain v d body failed chainLimit directory s).finish last

end Scanning

section Calls

inductive SlotKind
  | finish
  | deleted
  | long
  | label
  | entry
  deriving DecidableEq

/-- The tests of `find_entry` and `fat32_readdir`, in their order. -/
def kindOf (slot : ByteMemory) : SlotKind :=
  if slot 0=0 then .finish
  else if slot 0=0xE5 then .deleted
  else if slot 11=0x0F then .long
  else if (slot 11).toNat &&& 0x08≠0 then .label
  else .entry

structure Fat32Entry where
  cluster : Nat
  size : Nat
  attributes : Nat
  deriving DecidableEq

def entryOf (slot : ByteMemory) : Fat32Entry :=
  { cluster := read16 slot 20*2 ^ 16+read16 slot 26
    size := read32 slot 28
    attributes := (slot 11).toNat }

/-- Whether an entry has the name that is looked for, by its short or its long name. -/
def matchesName (name : Name) (lfn : LfnState) (slot : ByteMemory) : Bool :=
  (match shortName name with
    | none => false
    | some wanted => sameShort slot wanted) ||
  (match lfnDecode lfn slot direntNameMax with
    | none => false
    | some decoded => pathNameEqual name decoded)

def findStep (name : Name) : SlotBody LfnState (Option (Fat32Entry × Position)) :=
  fun p slot lfn =>
    match kindOf slot with
    | .finish => .stop none
    | .deleted => .next lfnReset
    | .long => .next (lfnAddEntry lfn slot)
    | .label => .next lfnReset
    | .entry => if matchesName name lfn slot then .stop (some (entryOf slot,p)) else .next lfnReset

def findEntry (v : Volume) (directory : Nat) (name : Name) (d : Disk) :
    Option (Fat32Entry × Position) :=
  scanDirectory v d (findStep name) none (fun _ => none) directory lfnReset

/-- What `fat32_readdir` delivers for an entry. -/
def direntOf (lfn : LfnState) (slot : ByteMemory) : FsDirent :=
  { name := (lfnDecode lfn slot direntNameMax).getD (shortText slot)
    size := read32 slot 28
    type := if (slot 11).toNat &&& 0x10≠0 then .directory else .file }

def readdirStep (index : Nat) : SlotBody (LfnState × Nat) (Option (Option FsDirent)) :=
  fun _ slot state =>
    match kindOf slot with
    | .finish => .stop (some none)
    | .deleted => .next (lfnReset,state.2)
    | .long => .next (lfnAddEntry state.1 slot,state.2)
    | .label => .next (lfnReset,state.2)
    | .entry =>
      if state.2≠index then .next (lfnReset,state.2+1)
      else .stop (some (some (direntOf state.1 slot)))

/-- `fat32_readdir` in a directory: `none` is -1, `some none` the end. -/
def readdirIn (v : Volume) (directory index : Nat) (d : Disk) : Option (Option FsDirent) :=
  scanDirectory v d (readdirStep index) none (fun _ => some none) directory (lfnReset,0)

/-- The search of `mark_entry_deleted` for its target, with the long-name slots it collects. -/
def markStep (target : Position) : SlotBody (LfnState × List Position) (Option (List Position)) :=
  fun p slot state =>
    if slot 0=0 then .stop none
    else if slot 0=0xE5 then .next (lfnReset, [])
    else if slot 11=0x0F then
      let lfn := lfnAddEntry state.1 slot
      if lfn.active ∧ state.2.length<20 then .next (lfn,state.2 ++ [p]) else .next (lfn, [])
    else if p=target then
      .stop (some (if (lfnDecode state.1 slot direntNameMax).isSome then state.2 else []))
    else .next (lfnReset, [])

/-- A slot marked as deleted. -/
def eraseSlot (p : Position) (d : Disk) : Bool × Disk :=
  match blockReadSector p.sector d with
  | none => (false,d)
  | some data =>
    match blockWriteSector p.sector (update data p.offset 0xE5) d with
    | none => (false,d)
    | some d => (true,d)

def eraseSlots : List Position → Disk → Bool × Disk
  | [], d => (true,d)
  | p :: ps, d =>
    match eraseSlot p d with
    | (true,d) => eraseSlots ps d
    | (false,d) => (false,d)

def markEntryDeleted (v : Volume) (directory : Nat) (target : Position) (d : Disk) : Bool × Disk :=
  match scanDirectory v d (markStep target) none (fun _ => none) directory (lfnReset, []) with
  | none => (false,d)
  | some longSlots =>
    match eraseSlots longSlots d with
    | (true,d) => eraseSlot target d
    | (false,d) => (false,d)

end Calls

section Slots

variable (v : Volume) (d : Disk)

/-- The clusters the loops go through. -/
def visitedClusters : Nat → Nat → List Nat
  | 0, _ => []
  | rounds+1, cluster =>
    if 2≤cluster ∧ cluster<endOfChain then
      cluster :: visitedClusters rounds (nextCluster v cluster d)
    else []

/-- The sectors of a cluster, in order. -/
def clusterSectors (cluster : Nat) : List Nat :=
  (List.range v.sectorsPerCluster).map (fun i => wrap (clusterSector v cluster+i))

def clusterPositions (cluster : Nat) : List Position :=
  (List.range v.sectorsPerCluster).flatMap (fun i =>
    slotOffsets.map (fun offset => ⟨wrap (clusterSector v cluster+i),offset⟩))

def dirPositions (directory : Nat) : List Position :=
  (visitedClusters v d chainLimit directory).flatMap (clusterPositions v)

/-- The contents of a directory: its slots in order, each with its place. -/
def dirSlots (directory : Nat) : List (Position × ByteMemory) :=
  (dirPositions v d directory).map (fun p => (p,slotAt d p))

variable {v d} {σ β : Type} {directory : Nat}

theorem mem_dirSlots {q : Position × ByteMemory} (h : q ∈ dirSlots v d directory) :
    q.1 ∈ dirPositions v d directory ∧ q.2=slotAt d q.1 := by
  obtain ⟨p,hp,rfl⟩ := mem_map.mp h
  exact ⟨hp,rfl⟩

theorem map_dirSlots : (dirSlots v d directory).map Prod.fst=dirPositions v d directory := by
  rw [dirSlots,map_map]
  exact map_id _

theorem scanCluster_eq {body : SlotBody σ β} {failed : β} {cluster : Nat}
    (hread : ∀ p ∈ clusterPositions v cluster, p.sector<d.sectors) (s : σ) :
    scanCluster v d body failed cluster s =
      scan (fun p s => body p (slotAt d p) s) (clusterPositions v cluster) s := by
  rw [scanCluster,clusterPositions,scan_flatMap]
  apply scan_congr
  intro i hi s
  have hzero : (⟨wrap (clusterSector v cluster+i),0⟩ : Position) ∈ clusterPositions v cluster :=
    mem_flatMap.mpr ⟨i,hi,mem_map.mpr ⟨0,by decide,rfl⟩⟩
  rw [blockReadSector_eq (hread _ hzero),scan_map]
  rfl

theorem scanChain_eq {body : SlotBody σ β} {failed : β} {rounds cluster : Nat}
    (hread : ∀ p ∈ (visitedClusters v d rounds cluster).flatMap (clusterPositions v),
      p.sector<d.sectors) (s : σ) :
    scanChain v d body failed rounds cluster s =
      scan (fun p s => body p (slotAt d p) s)
        ((visitedClusters v d rounds cluster).flatMap (clusterPositions v)) s := by
  induction rounds generalizing cluster s with
  | zero => rfl
  | succ rounds ih =>
    rw [scanChain,visitedClusters] at *
    by_cases hvalid : 2≤cluster ∧ cluster<endOfChain
    · rw [if_pos hvalid] at hread ⊢
      rw [if_pos hvalid]
      rw [flatMap_cons] at hread ⊢
      rw [scan_append,scanCluster_eq (fun p hp => hread p (mem_append_left _ hp))]
      cases scan (fun p s => body p (slotAt d p) s) (clusterPositions v cluster) s with
      | next s' => exact ih (fun p hp => hread p (mem_append_right _ hp)) s'
      | stop b => rfl
    · rw [if_neg hvalid,if_neg hvalid]
      rfl

theorem scanDirectory_eq {body : SlotBody σ β} {failed : β} {last : σ → β}
    (hread : ∀ p ∈ dirPositions v d directory, p.sector<d.sectors) (s : σ) :
    scanDirectory v d body failed last directory s =
      (scan (fun q s => body q.1 q.2 s) (dirSlots v d directory) s).finish last := by
  rw [scanDirectory,scanChain_eq hread,dirSlots,scan_map,dirPositions]

end Slots

section Chains

variable {v : Volume} {d : Disk} {directory : Nat} {c : Nat} {p : Position}

/-- A directory whose chain has entries in the FAT and sectors on the device, each cluster
once. -/
structure DirectoryChain (v : Volume) (d : Disk) (directory : Nat) : Prop where
  entries : ∀ c ∈ visitedClusters v d chainLimit directory, v.Entry c
  inside : ∀ c ∈ visitedClusters v d chainLimit directory, v.Inside d c
  nodup : (visitedClusters v d chainLimit directory).Nodup

theorem mem_slotOffsets {offset : Nat} : offset ∈ slotOffsets ↔ offset<512 ∧ offset%32=0 := by
  rw [slotOffsets,mem_map]
  constructor
  · intro h
    obtain ⟨k,hk,rfl⟩ := h
    rw [mem_range] at hk
    omega
  · intro h
    exact ⟨offset/32,mem_range.mpr (by omega),by omega⟩

theorem Volume.Sound.sector_eq (h : v.Sound) {i : Nat} (hc : v.Entry c)
    (hi : i<v.sectorsPerCluster) : wrap (clusterSector v c+i)=clusterSector v c+i := by
  have hmul : (c-2+1)*v.sectorsPerCluster≤v.fatSectors*128*v.sectorsPerCluster := by
    apply Nat.mul_le_mul_right
    have := hc.2
    have := hc.1
    omega
  rw [Nat.add_mul,Nat.one_mul] at hmul
  have hlimit := h.data
  have heq := h.clusterSector_eq hc
  exact Nat.mod_eq_of_lt (by omega)

theorem Volume.Sound.mem_clusterSectors (h : v.Sound) {s : Nat} (hc : v.Entry c)
    (hs : s ∈ clusterSectors v c) :
    clusterSector v c ≤ s ∧ s<clusterSector v c+v.sectorsPerCluster := by
  obtain ⟨i,hi,rfl⟩ := mem_map.mp hs
  rw [mem_range] at hi
  rw [h.sector_eq hc hi]
  omega

theorem Volume.Sound.mem_clusterPositions (h : v.Sound) (hc : v.Entry c) :
    p ∈ clusterPositions v c ↔
      clusterSector v c≤p.sector ∧ p.sector<clusterSector v c+v.sectorsPerCluster ∧
      p.offset<512 ∧ p.offset%32=0 := by
  rw [clusterPositions,mem_flatMap]
  constructor
  · intro hp
    obtain ⟨i,hi,hp⟩ := hp
    rw [mem_range] at hi
    obtain ⟨offset,hoffset,rfl⟩ := mem_map.mp hp
    rw [h.sector_eq hc hi]
    dsimp only
    exact ⟨by omega,by omega,mem_slotOffsets.mp hoffset⟩
  · intro hp
    obtain ⟨hle,hlt,hoffset⟩ := hp
    have hi : p.sector-clusterSector v c<v.sectorsPerCluster := by omega
    refine ⟨p.sector-clusterSector v c,mem_range.mpr hi,mem_map.mpr
      ⟨p.offset,mem_slotOffsets.mpr hoffset,?_⟩⟩
    rw [h.sector_eq hc hi,Nat.add_sub_cancel' hle]

theorem Volume.Sound.nodup_clusterPositions (h : v.Sound) (hc : v.Entry c) :
    (clusterPositions v c).Nodup := by
  rw [clusterPositions,nodup_flatMap]
  constructor
  · intro i _
    refine List.Nodup.map_on ?_ (by decide)
    intro a _ b _ heq
    exact (Position.mk.inj heq).2
  refine List.Nodup.pairwise_of_forall_ne nodup_range ?_
  intro i hi j hj hne
  rw [mem_range] at hi hj
  intro p hp hq
  obtain ⟨a,-,rfl⟩ := mem_map.mp hp
  obtain ⟨b,-,heq⟩ := mem_map.mp hq
  have hsector := (Position.mk.inj heq).1
  rw [h.sector_eq hc hi,h.sector_eq hc hj] at hsector
  omega

theorem Volume.Sound.nodup_positions (h : v.Sound) {cs : List Nat} (hentries : ∀ c ∈ cs, v.Entry c)
    (hnodup : cs.Nodup) : (cs.flatMap (clusterPositions v)).Nodup := by
  rw [nodup_flatMap]
  refine ⟨fun c hc => h.nodup_clusterPositions (hentries c hc),?_⟩
  refine List.Nodup.pairwise_of_forall_ne hnodup ?_
  intro a ha b hb hne p hpa hpb
  have ha' := (h.mem_clusterPositions (hentries a ha)).mp hpa
  have hb' := (h.mem_clusterPositions (hentries b hb)).mp hpb
  have := h.clusterSector_apart (hentries a ha) (hentries b hb) hne
  omega

/-- Where the slots of a directory lie. -/
structure SlotPlace (v : Volume) (d : Disk) (p : Position) : Prop where
  data : v.dataStartSector≤p.sector
  inside : p.sector<d.sectors
  offset : p.offset<512
  aligned : p.offset%32=0

variable (h : v.Sound) (hdir : DirectoryChain v d directory)
include h hdir

theorem DirectoryChain.place (hp : p ∈ dirPositions v d directory) :
    SlotPlace v d p := by
  obtain ⟨c,hc,hp⟩ := mem_flatMap.mp hp
  have hentry := hdir.entries c hc
  obtain ⟨hle,hlt,hoffset,haligned⟩ := (h.mem_clusterPositions hentry).mp hp
  have hinside := hdir.inside c hc
  rw [Volume.Inside] at hinside
  have heq := h.clusterSector_eq hentry
  exact ⟨by omega,by omega,hoffset,haligned⟩

theorem DirectoryChain.readable : ∀ p ∈ dirPositions v d directory, p.sector<d.sectors :=
  fun _ hp => (hdir.place h hp).inside

theorem DirectoryChain.nodup_positions : (dirPositions v d directory).Nodup :=
  h.nodup_positions hdir.entries hdir.nodup

end Chains

section Edits

variable {v : Volume} {d : Disk} {d' : Disk}

/-- A slot written over in a sector. -/
def withSlot (offset : Nat) (slot data : ByteMemory) : ByteMemory := fun k =>
  if offset≤k ∧ k<offset+32 then slot (k-offset) else data k

/-- A slot written over. -/
def Disk.setSlot (d : Disk) (p : Position) (slot : ByteMemory) : Disk :=
  d.write p.sector (withSlot p.offset slot (d.data p.sector))

theorem slotAt_setSlot_self (p : Position) (slot : ByteMemory) {i : Nat} (hi : i<32) :
    slotAt (d.setSlot p slot) p i=slot i := by
  rw [slotAt,slotOf,if_pos hi,Disk.setSlot,Disk.write_data_self,withSlot,if_pos (by omega),
    Nat.add_sub_cancel_left]

theorem slotAt_setSlot_of_ne {p q : Position} {slot : ByteMemory} (hp : p.offset%32=0)
    (hq : q.offset%32=0) (hne : q≠p) : slotAt (d.setSlot p slot) q=slotAt d q := by
  funext i
  rw [slotAt,slotAt,slotOf,slotOf]
  by_cases hi : i<32
  · rw [if_pos hi,if_pos hi,Disk.setSlot]
    by_cases hsector : q.sector=p.sector
    · have hoffset : q.offset≠p.offset := by
        intro heq
        exact hne (by cases p; cases q; cases hsector; cases heq; rfl)
      rw [hsector,Disk.write_data_self,withSlot,if_neg (by omega)]
    · rw [Disk.write_data_of_ne hsector]
  · rw [if_neg hi,if_neg hi]

/-- A slot with its first byte replaced. -/
def erased (slot : ByteMemory) : ByteMemory := update slot 0 0xE5

theorem eraseSlot_eq {p : Position} (hp : p.sector<d.sectors) :
    eraseSlot p d=(true, d.setSlot p (erased (slotAt d p))) := by
  rw [eraseSlot,blockReadSector_eq hp]
  dsimp only
  rw [blockWriteSector_eq hp]
  have hdata : update (d.data p.sector) p.offset 0xE5 =
      withSlot p.offset (erased (slotAt d p)) (d.data p.sector) := by
    funext k
    rw [withSlot]
    by_cases hk : k=p.offset
    · subst hk
      rw [update_self,if_pos (by omega),Nat.sub_self,erased,update_self]
    rw [update_of_ne hk]
    by_cases hin : p.offset≤k ∧ k<p.offset+32
    · rw [if_pos hin,erased,update_of_ne (by omega),slotAt,slotOf,
        if_pos (by omega),Nat.add_sub_cancel' hin.1]
    · rw [if_neg hin]
  rw [hdata]
  rfl

/-- What an edit of slots leaves: the device, the reserved sectors and the FATs. -/
structure DataEdit (v : Volume) (d d' : Disk) : Prop where
  sectors : d'.sectors=d.sectors
  fat : ∀ s<v.dataStartSector, d'.data s=d.data s

theorem DataEdit.refl (v : Volume) (d : Disk) : DataEdit v d d := ⟨rfl,fun _ _ => rfl⟩

theorem DataEdit.trans {d'' : Disk} (h : DataEdit v d d') (h' : DataEdit v d' d'') :
    DataEdit v d d'' :=
  ⟨h'.sectors.trans h.sectors,fun s hs => (h'.fat s hs).trans (h.fat s hs)⟩

theorem DataEdit.write {s : Nat} (hs : v.dataStartSector ≤ s) (bytes : ByteMemory) :
    DataEdit v d (d.write s bytes) :=
  ⟨rfl,fun _ ht => Disk.write_data_of_ne (by omega)⟩

theorem DataEdit.nextCluster (h : v.Sound) (hedit : DataEdit v d d')
    {cluster : Nat} (hcluster : cluster<v.fatSectors*128) :
    nextCluster v cluster d'=nextCluster v cluster d := by
  have hbound := h.fatSector_bounds h.copies hcluster
  rw [nextCluster_def,nextCluster_def,blockReadSector,blockReadSector,hedit.sectors,
    hedit.fat _ hbound.2]

theorem visitedClusters_congr {rounds cluster : Nat}
    (hnext : ∀ c ∈ visitedClusters v d rounds cluster, nextCluster v c d'=nextCluster v c d) :
    visitedClusters v d' rounds cluster=visitedClusters v d rounds cluster := by
  induction rounds generalizing cluster with
  | zero => rfl
  | succ rounds ih =>
    rw [visitedClusters] at hnext
    rw [visitedClusters,visitedClusters]
    by_cases hvalid : 2≤cluster ∧ cluster<endOfChain
    · rw [if_pos hvalid] at hnext
      rw [if_pos hvalid,if_pos hvalid,hnext cluster mem_cons_self]
      rw [ih (fun c hc => hnext c (mem_cons_of_mem cluster hc))]
    · rw [if_neg hvalid,if_neg hvalid]

theorem DataEdit.positions {directory : Nat} (h : v.Sound) (hedit : DataEdit v d d')
    (hdir : DirectoryChain v d directory) :
    dirPositions v d' directory=dirPositions v d directory := by
  rw [dirPositions,dirPositions,visitedClusters_congr]
  intro c hc
  exact hedit.nextCluster h (hdir.entries c hc).2

theorem DataEdit.directory {directory : Nat} (h : v.Sound) (hedit : DataEdit v d d')
    (hdir : DirectoryChain v d directory) : DirectoryChain v d' directory := by
  have hvisited : visitedClusters v d' chainLimit directory =
      visitedClusters v d chainLimit directory :=
    visitedClusters_congr (fun c hc => hedit.nextCluster h (hdir.entries c hc).2)
  refine ⟨?_,?_,?_⟩
  · rw [hvisited]
    exact hdir.entries
  · rw [hvisited]
    intro c hc
    rw [Volume.Inside,hedit.sectors]
    exact hdir.inside c hc
  · rw [hvisited]
    exact hdir.nodup

/-- Every slot of the list is erased, and no other one changes. -/
theorem eraseSlots_spec {ps : List Position} (hplace : ∀ p ∈ ps, SlotPlace v d p) :
    ∃ d', eraseSlots ps d=(true,d') ∧ DataEdit v d d' ∧
      (∀ p ∈ ps, slotAt d' p 0=0xE5) ∧
      ∀ q, q.offset%32=0 → q ∉ ps → slotAt d' q=slotAt d q := by
  induction ps generalizing d with
  | nil => exact ⟨d,rfl,DataEdit.refl v d,by simp,fun _ _ _ => rfl⟩
  | cons p ps ih =>
    have hp := hplace p mem_cons_self
    have hfirst : DataEdit v d (d.setSlot p (erased (slotAt d p))) := DataEdit.write hp.data _
    have hplace' : ∀ q ∈ ps, SlotPlace v (d.setSlot p (erased (slotAt d p))) q := by
      intro q hq
      have hq := hplace q (mem_cons_of_mem p hq)
      exact ⟨hq.data,hq.inside,hq.offset,hq.aligned⟩
    obtain ⟨d',hrun,hedit,herased,hsame⟩ := ih hplace'
    refine ⟨d',?_,hfirst.trans hedit,?_,?_⟩
    · rw [eraseSlots,eraseSlot_eq hp.inside]
      exact hrun
    · intro q hq
      by_cases hlater : q ∈ ps
      · exact herased q hlater
      have hqp : q=p := (mem_cons.mp hq).resolve_right hlater
      subst hqp
      rw [hsame q hp.aligned hlater,slotAt_setSlot_self _ _ (by decide)]
      exact update_self ..
    · intro q hq hout
      rw [mem_cons,not_or] at hout
      rw [hsame q hq hout.2,slotAt_setSlot_of_ne hp.aligned hq hout.1]

end Edits

end ConeOS.Fat32
