import ConeOS.Library.Bytes
import ConeOS.Library.Loop
import Mathlib.Logic.Function.Basic

namespace ConeOS.Fat32

open ConeOS.Library Function

/-- A block device on which every access to one of its sectors succeeds. -/
structure Disk where
  sectors : Nat
  data : Nat → ByteMemory

def blockReadSector (sector : Nat) (d : Disk) : Option ByteMemory :=
  if sector<d.sectors then some (d.data sector) else none

/-- The device after a sector was written. -/
def Disk.write (d : Disk) (sector : Nat) (bytes : ByteMemory) : Disk :=
  { d with data := update d.data sector bytes }

def blockWriteSector (sector : Nat) (bytes : ByteMemory) (d : Disk) : Option Disk :=
  if sector<d.sectors then some (d.write sector bytes) else none

/-- A block device any access to which may fail. A read that succeeds delivers the sector, and a
write that succeeds persists. -/
structure Device (δ : Type) where
  read : Nat → δ → Option ByteMemory × δ
  write : Nat → ByteMemory → δ → Bool × δ
  sectors : δ → Nat
  content : δ → Nat → ByteMemory
  read_keeps : ∀ s d, sectors (read s d).2=sectors d ∧ content (read s d).2=content d
  read_some : ∀ s d bytes, (read s d).1=some bytes → s<sectors d ∧ bytes=content d s
  write_true : ∀ s bytes d, (write s bytes d).1=true →
    sectors (write s bytes d).2=sectors d ∧
      content (write s bytes d).2=update (content d) s bytes

/-- The device on which only accesses past its end fail. -/
def diskDevice : Device Disk where
  read s d := (blockReadSector s d,d)
  write s bytes d :=
    match blockWriteSector s bytes d with
    | none => (false,d)
    | some d => (true,d)
  sectors := Disk.sectors
  content := Disk.data
  read_keeps _ _ := ⟨rfl,rfl⟩
  read_some s d bytes h := by
    rw [blockReadSector] at h
    split_ifs at h with hs
    exact ⟨hs,(Option.some.inj h).symm⟩
  write_true s bytes d h := by
    rw [blockWriteSector] at h ⊢
    split_ifs at h ⊢
    exact ⟨rfl,rfl⟩

section Access

variable {d : Disk} {sector : Nat} {bytes : ByteMemory}

@[simp] theorem Disk.write_sectors : (d.write sector bytes).sectors=d.sectors := rfl

@[simp] theorem Disk.write_data_self : (d.write sector bytes).data sector=bytes :=
  update_self ..

theorem Disk.write_data_of_ne {other : Nat} (h : other≠sector) :
    (d.write sector bytes).data other=d.data other := update_of_ne h ..

theorem blockReadSector_eq (h : sector<d.sectors) :
    blockReadSector sector d=some (d.data sector) := if_pos h

theorem blockWriteSector_eq (h : sector<d.sectors) :
    blockWriteSector sector bytes d=some (d.write sector bytes) := if_pos h

end Access

def read16 (data : ByteMemory) (offset : Nat) : Nat := ofLittleEndian (load offset 2 data)

def read32 (data : ByteMemory) (offset : Nat) : Nat := ofLittleEndian (load offset 4 data)

def write16 (offset value : Nat) (data : ByteMemory) : ByteMemory :=
  store offset (toLittleEndian 2 value) data

def write32 (offset value : Nat) (data : ByteMemory) : ByteMemory :=
  store offset (toLittleEndian 4 value) data

/-- The static variables of fat32.c while a volume is mounted. -/
structure Volume where
  rootCluster : Nat
  sectorsPerCluster : Nat
  dataStartSector : Nat
  fatStartSector : Nat
  fatCount : Nat
  fatSectors : Nat
  deriving DecidableEq

/-- Unsigned 32-bit arithmetic. -/
def wrap (n : Nat) : Nat := n%2 ^ 32

def fat32Mount (d : Disk) : Option Volume :=
  match blockReadSector 0 d with
  | none => none
  | some sector =>
    if read16 sector 11≠512 ∨ (sector 13).toNat=0 ∨ read16 sector 14=0 ∨
        (sector 16).toNat=0 ∨ read32 sector 36=0 ∨ read32 sector 44<2 ∨
        sector 510≠0x55 ∨ sector 511≠0xAA then none
    else
      some
        { rootCluster := read32 sector 44
          sectorsPerCluster := (sector 13).toNat
          dataStartSector := wrap (read16 sector 14+(sector 16).toNat*read32 sector 36)
          fatStartSector := read16 sector 14
          fatCount := (sector 16).toNat
          fatSectors := read32 sector 36 }

section Clusters

variable (v : Volume)

/-- The sector of a FAT copy that holds the entry of a cluster. -/
def fatSector (copy cluster : Nat) : Nat :=
  wrap (v.fatStartSector+copy*v.fatSectors+wrap (cluster*4)/512)

section Devices

variable {δ : Type} (D : Device δ)

/-- `update_fat` on a device that may fail. -/
def updateFatOn (cluster value : Nat) (d : δ) : Bool × δ :=
  loopAll (fun copy d =>
    match D.read (fatSector v copy cluster) d with
    | (none,d) => (false,d)
    | (some sector,d) =>
      D.write (fatSector v copy cluster) (write32 (wrap (cluster*4)%512) value sector) d)
    (List.range v.fatCount) d

/-- `next_cluster` on a device that may fail. -/
def nextClusterOn (cluster : Nat) (d : δ) : Nat × δ :=
  match D.read (fatSector v 0 cluster) d with
  | (none,d) => (0x0FFFFFFF,d)
  | (some sector,d) => (read32 sector (wrap (cluster*4)%512)%2 ^ 28, d)

end Devices

def updateFat (cluster value : Nat) (d : Disk) : Bool × Disk :=
  updateFatOn v diskDevice cluster value d

def nextCluster (cluster : Nat) (d : Disk) : Nat := (nextClusterOn v diskDevice cluster d).1

theorem nextCluster_def (cluster : Nat) (d : Disk) :
    nextCluster v cluster d =
      match blockReadSector (fatSector v 0 cluster) d with
      | none => 0x0FFFFFFF
      | some sector => read32 sector (wrap (cluster*4)%512)%2 ^ 28 := by
  rw [nextCluster,nextClusterOn]
  dsimp only [diskDevice]
  cases blockReadSector (fatSector v 0 cluster) d <;> rfl

/-- The loop of `allocate_cluster` over `count` clusters. -/
def allocateFrom : Nat → Nat → Disk → Nat × Disk
  | 0, _, d => (0,d)
  | count+1, cluster, d =>
    match blockReadSector (fatSector v 0 cluster) d with
    | none => (0,d)
    | some sector =>
      if read32 sector (wrap (cluster*4)%512)%2 ^ 28=0 then
        match updateFat v cluster 0x0FFFFFFF d with
        | (true,d) => (cluster,d)
        | (false,d) => allocateFrom count (cluster+1) d
      else allocateFrom count (cluster+1) d

def allocateCluster (d : Disk) : Nat × Disk := allocateFrom v (wrap (v.fatSectors*128)-2) 2 d

/-- For clusters from 2 on. -/
def clusterSector (cluster : Nat) : Nat :=
  wrap (v.dataStartSector+(cluster-2)*v.sectorsPerCluster)

end Clusters

section Geometry

variable {copy cluster : Nat}

/-- The layout the boot sector describes fits into 32 bits, for every entry of the FAT. -/
structure Volume.Sound (v : Volume) : Prop where
  perCluster : 0<v.sectorsPerCluster
  copies : 0<v.fatCount
  reserved : 0<v.fatStartSector
  layout : v.dataStartSector=v.fatStartSector+v.fatCount*v.fatSectors
  entries : v.fatSectors*512≤2 ^ 32
  data : v.dataStartSector+v.fatSectors*128*v.sectorsPerCluster≤2 ^ 32

/-- The clusters the FAT has entries for. -/
def Volume.Entry (v : Volume) (cluster : Nat) : Prop := 2≤cluster ∧ cluster<v.fatSectors*128

variable {v : Volume}

theorem Volume.Sound.fatSector_eq (h : v.Sound) (hcopy : copy<v.fatCount)
    (hcluster : cluster<v.fatSectors*128) :
    fatSector v copy cluster=v.fatStartSector+copy*v.fatSectors+cluster/128 := by
  have hoffset : wrap (cluster*4)=cluster*4 := Nat.mod_eq_of_lt (by
    have := h.entries
    omega)
  have hend : v.fatStartSector+copy*v.fatSectors+cluster/128<v.dataStartSector := by
    have hmul : (copy+1)*v.fatSectors≤v.fatCount*v.fatSectors :=
      Nat.mul_le_mul_right _ hcopy
    rw [Nat.add_mul,Nat.one_mul] at hmul
    rw [h.layout]
    omega
  have hlimit := h.data
  rw [fatSector,hoffset,show cluster*4/512=cluster/128 by omega]
  exact Nat.mod_eq_of_lt (by omega)

theorem Volume.Sound.fatSector_bounds (h : v.Sound)
    (hcopy : copy<v.fatCount) (hcluster : cluster<v.fatSectors*128) :
    v.fatStartSector≤fatSector v copy cluster ∧ fatSector v copy cluster<v.dataStartSector := by
  have hmul : (copy+1)*v.fatSectors≤v.fatCount*v.fatSectors :=
    Nat.mul_le_mul_right _ hcopy
  rw [Nat.add_mul,Nat.one_mul] at hmul
  rw [h.fatSector_eq hcopy hcluster,h.layout]
  omega

theorem Volume.Sound.clusterSector_eq (h : v.Sound) (hc : v.Entry cluster) :
    clusterSector v cluster=v.dataStartSector+(cluster-2)*v.sectorsPerCluster := by
  have hmul : (cluster-2+1)*v.sectorsPerCluster ≤
      v.fatSectors*128*v.sectorsPerCluster := by
    apply Nat.mul_le_mul_right
    have := hc.2
    omega
  rw [Nat.add_mul,Nat.one_mul] at hmul
  have hlimit := h.data
  have hpos := h.perCluster
  exact Nat.mod_eq_of_lt (by omega)

theorem Volume.Sound.clusterSector_apart (h : v.Sound) {c c' : Nat} (hc : v.Entry c)
    (hc' : v.Entry c') (hne : c≠c') :
    clusterSector v c+v.sectorsPerCluster≤clusterSector v c' ∨
      clusterSector v c'+v.sectorsPerCluster≤clusterSector v c := by
  have hstep : ∀ {a b : Nat}, v.Entry a → v.Entry b → a<b →
      clusterSector v a+v.sectorsPerCluster≤clusterSector v b := by
    intro a b ha hb hlt
    have hmul : (a-2+1)*v.sectorsPerCluster≤(b-2)*v.sectorsPerCluster := by
      apply Nat.mul_le_mul_right
      have := ha.1
      omega
    rw [Nat.add_mul,Nat.one_mul] at hmul
    rw [h.clusterSector_eq ha,h.clusterSector_eq hb]
    omega
  obtain hlt | hlt := Nat.lt_or_gt_of_ne hne
  · exact .inl (hstep hc hc' hlt)
  · exact .inr (hstep hc' hc hlt)

/-- All sectors of a cluster lie on the device. -/
def Volume.Inside (v : Volume) (d : Disk) (cluster : Nat) : Prop :=
  clusterSector v cluster+v.sectorsPerCluster≤d.sectors

end Geometry

section Fat

variable {v : Volume} {d : Disk} {cluster value : Nat} {d' : Disk}

theorem read32_write32 (data : ByteMemory) (a b value : Nat) (ha : a%4=0) (hb : b%4=0) :
    read32 (write32 b value data) a=if a=b then value%2 ^ 32 else read32 data a := by
  rw [read32,write32]
  split_ifs with h
  · subst h
    rw [load_store (toLittleEndian_length 4 value).symm]
    simp only [toLittleEndian,ofLittleEndian,UInt8.toNat_ofNat']
    omega
  · rw [load_store_apart (by rw [toLittleEndian_length]; omega)]
    rfl

/-- What one FAT update leaves: the other sectors, and in the copies done the entry. -/
structure FatUpdated (v : Volume) (cluster value : Nat) (copies : Nat → Prop) (d d' : Disk) :
    Prop where
  sectors : d'.sectors=d.sectors
  elsewhere : ∀ s, (∀ copy, copies copy → s≠fatSector v copy cluster) → d'.data s=d.data s
  entry : ∀ copy, copies copy → d'.data (fatSector v copy cluster) =
    write32 (wrap (cluster*4)%512) value (d.data (fatSector v copy cluster))

theorem Volume.Sound.fatSector_inj (h : v.Sound) {copy copy' cluster' : Nat}
    (hcopy : copy<v.fatCount) (hcopy' : copy'<v.fatCount)
    (hcluster : cluster<v.fatSectors*128) (hcluster' : cluster'<v.fatSectors*128)
    (heq : fatSector v copy cluster=fatSector v copy' cluster') :
    copy=copy' ∧ cluster/128=cluster'/128 := by
  rw [h.fatSector_eq hcopy hcluster,h.fatSector_eq hcopy' hcluster'] at heq
  have hrow : ∀ {a b x y : Nat}, x<v.fatSectors → y<v.fatSectors → a<b →
      a*v.fatSectors+x≠b*v.fatSectors+y := by
    intro a b x y hx hy hlt
    have hmul : (a+1)*v.fatSectors≤b*v.fatSectors := Nat.mul_le_mul_right _ hlt
    rw [Nat.add_mul,Nat.one_mul] at hmul
    omega
  have hx : cluster/128<v.fatSectors := by omega
  have hy : cluster'/128<v.fatSectors := by omega
  obtain hlt | rfl | hlt := Nat.lt_trichotomy copy copy'
  · exact absurd (by omega) (hrow hx hy hlt)
  · exact ⟨rfl,by omega⟩
  · exact absurd (by omega) (hrow hy hx hlt)

/-- An update of an entry reaches every copy. -/
theorem updateFat_spec (h : v.Sound) (hfat : v.dataStartSector≤d.sectors)
    (hcluster : cluster<v.fatSectors*128) (value : Nat) :
    ∃ d', updateFat v cluster value d=(true,d') ∧
      FatUpdated v cluster value (fun copy => copy<v.fatCount) d d' := by
  refine loopAll_success (P := fun i d' => FatUpdated v cluster value (fun copy => copy < i) d d')
    ⟨rfl,fun _ _ => rfl,fun _ hc => absurd hc (Nat.not_lt_zero _)⟩ ?_
  intro i d' hi hp
  have hbound := h.fatSector_bounds hi hcluster
  have hinside : fatSector v i cluster<d'.sectors := by
    rw [hp.sectors]
    omega
  have hsame : d'.data (fatSector v i cluster)=d.data (fatSector v i cluster) := by
    refine hp.elsewhere _ (fun copy hcopy heq => ?_)
    have := (h.fatSector_inj hi (by omega) hcluster hcluster heq).1
    omega
  dsimp only [diskDevice]
  rw [blockReadSector_eq hinside]
  dsimp only
  rw [blockWriteSector_eq hinside]
  refine ⟨_,rfl,hp.sectors,fun s hs => ?_,fun copy hcopy => ?_⟩
  · rw [Disk.write_data_of_ne (hs i (Nat.lt_succ_self i))]
    exact hp.elsewhere s (fun copy hcopy => hs copy (by omega))
  by_cases hcur : copy=i
  · subst hcur
    rw [Disk.write_data_self,hsame]
  have hne : fatSector v copy cluster≠fatSector v i cluster := by
    intro heq
    exact hcur (h.fatSector_inj (by omega) hi hcluster hcluster heq).1
  rw [Disk.write_data_of_ne hne]
  exact hp.entry copy (by omega)

theorem nextCluster_eq (h : v.Sound) (hfat : v.dataStartSector≤d.sectors)
    (hcluster : cluster<v.fatSectors*128) :
    nextCluster v cluster d =
      read32 (d.data (fatSector v 0 cluster)) (wrap (cluster*4)%512)%2 ^ 28 := by
  have hbound := h.fatSector_bounds h.copies hcluster
  rw [nextCluster_def,blockReadSector_eq (by omega)]

theorem entryOffset (h : v.Sound) (hcluster : cluster<v.fatSectors*128) :
    wrap (cluster*4)%512=cluster%128*4 := by
  have hoffset : wrap (cluster*4)=cluster*4 := Nat.mod_eq_of_lt (by
    have := h.entries
    omega)
  rw [hoffset]
  omega

/-- After an update the cluster has the new entry and every other one its old entry. -/
theorem FatUpdated.nextCluster (h : v.Sound) (hfat : v.dataStartSector≤d.sectors)
    (hcluster : cluster<v.fatSectors*128)
    (hup : FatUpdated v cluster value (fun copy => copy<v.fatCount) d d') {other : Nat}
    (hother : other<v.fatSectors*128) :
    nextCluster v other d' =
      if other=cluster then value%2 ^ 28 else nextCluster v other d := by
  have hfat' : v.dataStartSector≤d'.sectors := by
    rw [hup.sectors]
    exact hfat
  rw [nextCluster_eq h hfat' hother,nextCluster_eq h hfat hother]
  by_cases hsector : fatSector v 0 other=fatSector v 0 cluster
  · have hdiv := (h.fatSector_inj h.copies h.copies hother hcluster hsector).2
    rw [hsector,hup.entry 0 h.copies,entryOffset h hother,entryOffset h hcluster,
      read32_write32 _ _ _ _ (by omega) (by omega)]
    by_cases hsame : other=cluster
    · rw [if_pos (by omega),if_pos hsame]
      omega
    · rw [if_neg (by omega),if_neg hsame]
  have hdata : d'.data (fatSector v 0 other)=d.data (fatSector v 0 other) := by
    refine hup.elsewhere _ (fun copy hcopy heq => ?_)
    have hzero := (h.fatSector_inj h.copies hcopy hother hcluster heq).1
    subst hzero
    exact hsector heq
  have hne : other≠cluster := by
    intro heq
    exact hsector (by rw [heq])
  rw [hdata,if_neg hne]

theorem FatUpdated.data (h : v.Sound)
    (hcluster : cluster<v.fatSectors*128)
    (hup : FatUpdated v cluster value (fun copy => copy<v.fatCount) d d') {s : Nat}
    (hs : v.dataStartSector ≤ s) : d'.data s=d.data s := by
  refine hup.elsewhere s (fun copy hcopy heq => ?_)
  have := h.fatSector_bounds hcopy hcluster
  omega

end Fat

section Allocation

variable {v : Volume} {d d' : Disk}

/-- The cluster that `allocate_cluster` looks for: the lowest one whose entry reads as free. -/
structure FirstFree (v : Volume) (d : Disk) (c : Nat) : Prop where
  low : 2 ≤ c
  high : c<wrap (v.fatSectors*128)
  free : nextCluster v c d=0
  least : ∀ x, 2 ≤ x → x<c → nextCluster v x d≠0

theorem FirstFree.unique {c c' : Nat} (h : FirstFree v d c) (h' : FirstFree v d c') : c=c' := by
  obtain hlt | heq | hlt := Nat.lt_trichotomy c c'
  · exact absurd h.free (h'.least c h.low hlt)
  · exact heq
  · exact absurd h'.free (h.least c' h'.low hlt)

theorem FirstFree.entry {c : Nat} (h : FirstFree v d c) : v.Entry c :=
  ⟨h.low,Nat.lt_of_lt_of_le h.high (Nat.mod_le _ _)⟩

theorem updateFat_true {cluster : Nat} (value : Nat)
    (hmark : ∀ copy<v.fatCount, fatSector v copy cluster<d.sectors) :
    ∃ d', updateFat v cluster value d=(true,d') ∧ d'.sectors=d.sectors := by
  refine loopAll_success (P := fun _ (d' : Disk) => d'.sectors=d.sectors) rfl ?_
  intro i d' hi hp
  have hinside : fatSector v i cluster<d'.sectors := by
    rw [hp]
    exact hmark i hi
  dsimp only [diskDevice]
  rw [blockReadSector_eq hinside]
  dsimp only
  rw [blockWriteSector_eq hinside]
  exact ⟨_,rfl,hp⟩

/-- With the entries on the device, the first free one is taken and marked, or there is none. -/
theorem allocateFrom_spec (hcopies : 0<v.fatCount) (count first : Nat)
    (hmark : ∀ x, first ≤ x → x<first+count → ∀ copy<v.fatCount,
      fatSector v copy x<d.sectors) :
    (∃ c d', allocateFrom v count first d=(c,d') ∧ updateFat v c 0x0FFFFFFF d=(true,d') ∧
      first ≤ c ∧ c<first+count ∧ nextCluster v c d=0 ∧
      ∀ x, first ≤ x → x<c → nextCluster v x d≠0) ∨
    allocateFrom v count first d=(0,d) ∧
      ∀ c, first ≤ c → c<first+count → nextCluster v c d≠0 := by
  induction count generalizing first with
  | zero => exact .inr ⟨rfl,fun c hle hlt => by omega⟩
  | succ count ih =>
    have hhere := hmark first (Nat.le_refl _) (by omega)
    have hread := blockReadSector_eq (hhere 0 hcopies)
    have hnext : nextCluster v first d =
        read32 (d.data (fatSector v 0 first)) (wrap (first*4)%512)%2 ^ 28 := by
      rw [nextCluster_def,hread]
    rw [allocateFrom,hread]
    dsimp only
    rw [← hnext]
    by_cases hfree : nextCluster v first d=0
    · obtain ⟨d',hcall,-⟩ := updateFat_true 0x0FFFFFFF hhere
      rw [if_pos hfree,hcall]
      exact .inl ⟨first,d',rfl,hcall,Nat.le_refl _,by omega,hfree,fun x hle hlt => by omega⟩
    rw [if_neg hfree]
    have hskip : ∀ {y}, (∀ x, first+1 ≤ x → x<y → nextCluster v x d≠0) →
        ∀ x, first ≤ x → x<y → nextCluster v x d≠0 := by
      intro y hy x hle hlt
      obtain rfl | hne := Nat.eq_or_lt_of_le hle
      · exact hfree
      · exact hy x hne hlt
    obtain ⟨c,d',hrun,hcall,hle,hlt,hzero,hleast⟩ | ⟨hrun,hnone⟩ :=
      ih (first+1) (fun x hle hlt => hmark x (by omega) (by omega))
    · exact .inl ⟨c,d',hrun,hcall,by omega,by omega,hzero,hskip hleast⟩
    · rw [Nat.add_right_comm] at hnone
      exact .inr ⟨hrun,hskip hnone⟩

/-- `allocate_cluster` takes the first free cluster, or there is none and nothing changes. -/
theorem allocateCluster_first (hcopies : 0<v.fatCount)
    (hmark : ∀ x<v.fatSectors*128, ∀ copy<v.fatCount, fatSector v copy x<d.sectors) :
    (∃ c d', allocateCluster v d=(c,d') ∧ FirstFree v d c ∧
      updateFat v c 0x0FFFFFFF d=(true,d')) ∨
    allocateCluster v d=(0,d) ∧
      ∀ c, 2 ≤ c → c<wrap (v.fatSectors*128) → nextCluster v c d≠0 := by
  have hwrap : wrap (v.fatSectors*128)≤v.fatSectors*128 := Nat.mod_le _ _
  obtain ⟨c,d',hrun,hcall,hle,hlt,hfree,hleast⟩ | ⟨hrun,hnone⟩ :=
    allocateFrom_spec (d := d) hcopies (wrap (v.fatSectors*128)-2) 2
      (fun x hle hlt => hmark x (by omega))
  · exact .inl ⟨c,d',hrun,⟨hle,by omega,hfree,hleast⟩,hcall⟩
  · exact .inr ⟨hrun,fun c hle hlt => hnone c hle (by omega)⟩

theorem allocateCluster_spec (h : v.Sound) (hfat : v.dataStartSector≤d.sectors) :
    (∃ c d', allocateCluster v d=(c,d') ∧ FirstFree v d c ∧
      FatUpdated v c 0x0FFFFFFF (fun copy => copy<v.fatCount) d d') ∨
    allocateCluster v d=(0,d) ∧ ∀ c, v.Entry c → nextCluster v c d≠0 := by
  have hentries := h.entries
  have hwrap : wrap (v.fatSectors*128)=v.fatSectors*128 := Nat.mod_eq_of_lt (by omega)
  obtain ⟨c,d',hrun,hfirst,hcall⟩ | ⟨hrun,hnone⟩ := allocateCluster_first h.copies
    (fun x hx copy hcopy => Nat.lt_of_lt_of_le (h.fatSector_bounds hcopy hx).2 hfat)
  · obtain ⟨d₁,hcall₁,hup⟩ := updateFat_spec h hfat hfirst.entry.2 0x0FFFFFFF
    rw [hcall] at hcall₁
    cases hcall₁
    exact .inl ⟨c,d',hrun,hfirst,hup⟩
  · rw [hwrap] at hnone
    exact .inr ⟨hrun,fun c hc => hnone c hc.1 hc.2⟩

/-- The first sector behind the FATs, over the integers. -/
def Volume.dataBase (v : Volume) : Nat := v.fatStartSector+v.fatCount*v.fatSectors

/-- What `fat32_mount` has checked and computed. -/
theorem fat32Mount_fields (hmount : fat32Mount d=some v) :
    0<v.sectorsPerCluster ∧ 0<v.fatCount ∧ 0<v.fatStartSector ∧ 0<v.fatSectors ∧
      v.dataStartSector=wrap v.dataBase := by
  rw [fat32Mount] at hmount
  cases hread : blockReadSector 0 d with
  | none =>
    rw [hread] at hmount
    cases hmount
  | some sector =>
    rw [hread] at hmount
    dsimp only at hmount
    split_ifs at hmount with hbad
    cases hmount
    simp only [not_or] at hbad
    obtain ⟨-,hper,hreserved,hcount,hsectors,-,-,-⟩ := hbad
    exact ⟨Nat.pos_of_ne_zero hper,Nat.pos_of_ne_zero hcount,Nat.pos_of_ne_zero hreserved,
      Nat.pos_of_ne_zero hsectors,rfl⟩

/-- A mounted volume is sound if its sizes fit, up to the last entry of the FAT. -/
theorem fat32Mount_sound (hmount : fat32Mount d=some v) (hentries : v.fatSectors*512≤2 ^ 32)
    (hdata : v.dataBase+v.fatSectors*128*v.sectorsPerCluster≤2 ^ 32) : v.Sound := by
  obtain ⟨hper,hcopies,hreserved,hsectors,hstart⟩ := fat32Mount_fields hmount
  have hpos : 0<v.fatSectors*128*v.sectorsPerCluster := Nat.mul_pos (by omega) hper
  have hlayout : v.dataStartSector=v.dataBase := by
    rw [hstart]
    exact Nat.mod_eq_of_lt (by omega)
  exact ⟨hper,hcopies,hreserved,hlayout,hentries,by rw [hlayout]; exact hdata⟩

/-- A cluster has sectors of its own, behind the FATs and on the device, and nothing wraps on the
way. -/
structure OwnSectors (v : Volume) (d : Disk) (c : Nat) : Prop where
  fats : v.fatCount*v.fatSectors<2 ^ 32
  entries : v.fatSectors*128<2 ^ 32
  offset : c*4<2 ^ 32
  data : (c-2)*v.sectorsPerCluster<2 ^ 32
  behind : clusterSector v c=v.dataBase+(c-2)*v.sectorsPerCluster
  inside : clusterSector v c+v.sectorsPerCluster≤d.sectors
  apart : ∀ c', v.Entry c' → c'≠c →
    clusterSector v c+v.sectorsPerCluster≤clusterSector v c' ∨
    clusterSector v c'+v.sectorsPerCluster≤clusterSector v c

/-- The sizes of the boot sector leave room for a cluster: it ends on the device, and no other
number's place comes down on it modulo 2^32. -/
structure RoomFor (v : Volume) (d : Disk) (c : Nat) : Prop where
  entries : v.fatSectors*128<2 ^ 32
  offset : c*4<2 ^ 32
  word : v.dataBase+(c-2)*v.sectorsPerCluster<2 ^ 32
  device : v.dataBase+(c-2)*v.sectorsPerCluster+v.sectorsPerCluster≤d.sectors
  others : ∀ c', v.Entry c' → c'≠c →
    v.dataBase+(c-2)*v.sectorsPerCluster+v.sectorsPerCluster ≤
      (v.dataBase+(c'-2)*v.sectorsPerCluster)%2 ^ 32 ∨
    (v.dataBase+(c'-2)*v.sectorsPerCluster)%2 ^ 32+v.sectorsPerCluster ≤
      v.dataBase+(c-2)*v.sectorsPerCluster

theorem ownSectors_iff (hstart : v.dataStartSector=wrap v.dataBase) (c : Nat) :
    OwnSectors v d c ↔ RoomFor v d c := by
  have hplace : ∀ x, clusterSector v x=(v.dataBase+(x-2)*v.sectorsPerCluster)%2 ^ 32 := by
    intro x
    rw [clusterSector,hstart,wrap,wrap,Nat.mod_add_mod]
  have hbase : v.fatCount*v.fatSectors≤v.dataBase := Nat.le_add_left _ _
  constructor
  · intro h
    have hbehind := h.behind
    have hinside := h.inside
    have hapart := h.apart
    rw [hbehind] at hinside hapart
    have hword := hplace c
    rw [hbehind] at hword
    simp only [hplace] at hapart
    exact ⟨h.entries,h.offset,by omega,hinside,hapart⟩
  · intro h
    have hword := h.word
    have hbehind : clusterSector v c=v.dataBase+(c-2)*v.sectorsPerCluster := by
      rw [hplace,Nat.mod_eq_of_lt hword]
    refine ⟨by omega,h.entries,h.offset,by omega,hbehind,?_,?_⟩
    · rw [hbehind]
      exact h.device
    · simp only [hbehind,hplace]
      exact h.others

/-- With room for one cluster the FATs lie on the device, whichever entry is asked for. -/
theorem RoomFor.fatSector_lt {c : Nat} (h : RoomFor v d c) {x : Nat} (hx : x<v.fatSectors*128)
    {copy : Nat} (hcopy : copy<v.fatCount) : fatSector v copy x<d.sectors := by
  have hmul : (copy+1)*v.fatSectors≤v.fatCount*v.fatSectors := Nat.mul_le_mul_right _ hcopy
  rw [Nat.add_mul,Nat.one_mul] at hmul
  have hbase : v.dataBase=v.fatStartSector+v.fatCount*v.fatSectors := rfl
  have hdevice := h.device
  have hoffset : wrap (x*4)≤x*4 := Nat.mod_le _ _
  have hsector : fatSector v copy x≤v.fatStartSector+copy*v.fatSectors+wrap (x*4)/512 :=
    Nat.mod_le _ _
  omega

/-- One reserved sector, one FAT of one sector, clusters of one sector. -/
def sampleBoot : ByteMemory := fun i =>
  if i=12 then 2
  else if i=13 ∨ i=14 ∨ i=16 ∨ i=36 then 1
  else if i=44 then 2
  else if i=510 then 0x55
  else if i=511 then 0xAA
  else 0

/-- A device of four sectors: the boot sector, the FAT and the clusters 2 and 3. -/
def sampleDisk (fat : ByteMemory) : Disk :=
  ⟨4,fun s => if s=0 then sampleBoot else if s=1 then fat else fun _ => 0⟩

def sampleVolume : Volume := ⟨2,1,2,1,1,1⟩

end Allocation

end ConeOS.Fat32
