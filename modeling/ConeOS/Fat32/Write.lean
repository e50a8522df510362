import ConeOS.Fat32.Tree

namespace ConeOS.Fat32

open ConeOS.Library List

section Calls

variable (v : Volume)

def locatePathEntry (path : Name) (d : Disk) : Option (Fat32Entry × Position) :=
  match splitParent path with
  | none => none
  | some (parent,leaf) =>
    match resolveDirectory v parent d with
    | none => none
    | some parentCluster => findEntry v parentCluster leaf d

def statFile (path : Name) (d : Disk) : Option Nat :=
  match locatePathEntry v path d with
  | none => none
  | some (entry,_) => if entry.isDirectory then none else some entry.size

/-- The inner loop of `fat32_read_file`: the bytes still missing and those copied. -/
def readSectors (d : Disk) : List Nat → Nat → List UInt8 → Option (Nat × List UInt8)
  | [], remaining, copied => some (remaining,copied)
  | s :: rest, remaining, copied =>
    if remaining=0 then some (remaining,copied)
    else
      match blockReadSector s d with
      | none => none
      | some data =>
        let amount := min remaining 512
        readSectors d rest (remaining-amount) (copied ++ load 0 amount data)

/-- The loop of `fat32_read_file` over the chain. -/
def readClusters (d : Disk) : Nat → Nat → Nat → List UInt8 → Option (Nat × List UInt8)
  | 0, _, remaining, copied => some (remaining,copied)
  | rounds+1, cluster, remaining, copied =>
    if remaining≠0 ∧ 2≤cluster ∧ cluster<endOfChain then
      match readSectors d (clusterSectors v cluster) remaining copied with
      | none => none
      | some (remaining,copied) =>
        readClusters d rounds (nextCluster v cluster d) remaining copied
    else some (remaining,copied)

/-- Every round copies a byte, so the bytes to copy are rounds enough. -/
def readFile (path : Name) (capacity : Nat) (d : Disk) : Option (List UInt8) :=
  match locatePathEntry v path d with
  | none => none
  | some (entry,_) =>
    if entry.isDirectory then none
    else
      let remaining := min entry.size capacity
      match readClusters v d remaining entry.cluster remaining [] with
      | none => none
      | some (remaining,copied) => if remaining≠0 then none else some copied

/-- The loop of `fat32_write_file` that adds the missing clusters. -/
def growChain : Nat → List Nat → Disk → Bool × List Nat × Disk
  | 0, clusters, d => (true,clusters,d)
  | missing+1, clusters, d =>
    match allocateCluster v d with
    | (next,d) =>
      if next=0 then (false,clusters,d)
      else
        match updateFat v (clusters.getLastD 0) next d with
        | (false,d) => (false,clusters,d)
        | (true,d) => growChain missing (clusters ++ [next]) d

/-- The clusters behind the last one that is needed are freed. -/
def cutChain (rounds last : Nat) (d : Disk) : Option (Bool × Disk) :=
  let next := nextCluster v last d
  match updateFat v last 0x0FFFFFFF d with
  | (false,d) => some (false,d)
  | (true,d) => freeChain v rounds next d

/-- The loops of `fat32_write_file` over the sectors, with the bytes copied so far. -/
def writeSectors (buffer : List UInt8) : List Nat → Nat → Disk → Bool × Disk
  | [], _, d => (true,d)
  | s :: rest, copied, d =>
    let amount := min (buffer.length-copied) 512
    match blockWriteSector s (fun j => if j<amount then buffer.getD (copied+j) 0 else 0) d with
    | none => (false,d)
    | some d => writeSectors buffer rest (copied+amount) d

def writeSize (target : Position) (size : Nat) (d : Disk) : Bool × Disk :=
  match blockReadSector target.sector d with
  | none => (false,d)
  | some sector =>
    match blockWriteSector target.sector (write32 (target.offset+28) size sector) d with
    | none => (false,d)
    | some d => (true,d)

def writeData (buffer : List UInt8) (clusters : List Nat) (target : Position) (d : Disk) :
    Bool × Disk :=
  match writeSectors buffer (clusters.flatMap (clusterSectors v)) 0 d with
  | (false,d) => (false,d)
  | (true,d) => writeSize target buffer.length d

def requiredClusters (size : Nat) : Nat :=
  let clusterBytes := v.sectorsPerCluster*512
  let required := (size+clusterBytes-1)/clusterBytes
  if required=0 then 1 else required

def writeFile (rounds : Nat) (path : Name) (buffer : List UInt8) (d : Disk) :
    Option (Bool × Disk) :=
  if 2 ^ 32≤buffer.length then some (false,d)
  else
    match locatePathEntry v path d with
    | none => some (false,d)
    | some (entry,target) =>
      if entry.isDirectory ∨ entry.cluster<2 then some (false,d)
      else
        let required := requiredClusters v buffer.length
        let clusters := visitedClusters v d 32 entry.cluster
        if clusters=[] ∨ 32<required then some (false,d)
        else
          match growChain v (required-clusters.length) clusters d with
          | (false,_,d) => some (false,d)
          | (true,clusters,d) =>
            if required<clusters.length then
              match cutChain v rounds (clusters.getD (required-1) 0) d with
              | none => none
              | some (false,d) => some (false,d)
              | some (true,d) => some (writeData v buffer (clusters.take required) target d)
            else some (writeData v buffer (clusters.take required) target d)

end Calls

section Reading

variable {v : Volume} {d d' : Disk} {sectors : List Nat}

/-- The bytes of a list of sectors. -/
def bytesOf (d : Disk) (sectors : List Nat) : List UInt8 :=
  sectors.flatMap (fun s => load 0 512 (d.data s))

theorem bytesOf_length : (bytesOf d sectors).length=sectors.length*512 := by
  induction sectors with
  | nil => rfl
  | cons s rest ih =>
    rw [bytesOf,flatMap_cons,length_append,load_length,← bytesOf,ih,length_cons]
    omega

theorem bytesOf_append (d : Disk) (a b : List Nat) :
    bytesOf d (a ++ b)=bytesOf d a ++ bytesOf d b := flatMap_append

theorem bytesOf_congr (h : ∀ s ∈ sectors, d'.data s=d.data s) :
    bytesOf d' sectors=bytesOf d sectors :=
  flatMap_congr (fun s hs => by rw [h s hs])

theorem readSectors_eq (hinside : ∀ s ∈ sectors, s<d.sectors) (remaining : Nat)
    (copied : List UInt8) :
    readSectors d sectors remaining copied =
      some (remaining-sectors.length*512,copied ++ (bytesOf d sectors).take remaining) := by
  induction sectors generalizing remaining copied with
  | nil => simp [readSectors,bytesOf]
  | cons s rest ih =>
    rw [readSectors]
    by_cases hzero : remaining=0
    · simp [hzero]
    have hload : load 0 (min remaining 512) (d.data s)=(load 0 512 (d.data s)).take remaining := by
      rw [load,load,← map_take,take_range]
    rw [if_neg hzero,blockReadSector_eq (hinside s mem_cons_self)]
    dsimp only
    rw [ih (fun t ht => hinside t (mem_cons_of_mem s ht)),bytesOf,bytesOf,flatMap_cons,
      take_append,load_length,hload,append_assoc,length_cons,
      show remaining-min remaining 512=remaining-512 by omega,Nat.sub_sub,Nat.add_mul,Nat.one_mul,
      Nat.add_comm 512]

theorem readClusters_zero (rounds cluster : Nat) (copied : List UInt8) :
    readClusters v d rounds cluster 0 copied=some (0,copied) := by
  cases rounds with
  | zero => rfl
  | succ rounds => rw [readClusters,if_neg (by simp)]

/-- What a chain has room for is read from its sectors, whatever comes behind it. -/
theorem readClusters_eq (h : v.Sound) {cs : List Nat} {first : Nat} (hchain : Chain v d cs first)
    (hinside : ∀ s ∈ cs.flatMap (clusterSectors v), s<d'.sectors)
    (hlinks : ∀ c ∈ cs.dropLast, nextCluster v c d'=nextCluster v c d) {rounds remaining : Nat}
    (hroom : remaining≤cs.length*(v.sectorsPerCluster*512)) (hrounds : remaining≤rounds)
    (copied : List UInt8) :
    readClusters v d' rounds first remaining copied =
      some (0,copied ++ (bytesOf d' (cs.flatMap (clusterSectors v))).take remaining) := by
  by_cases hzero : remaining=0
  · rw [hzero,readClusters_zero,take_zero,append_nil]
  induction cs generalizing first rounds remaining copied with
  | nil =>
    rw [length_nil,Nat.zero_mul] at hroom
    omega
  | cons x cs ih =>
    obtain ⟨rfl,hlow,hhigh,hrest⟩ := hchain
    obtain ⟨rounds,rfl⟩ : ∃ k, rounds=k+1 := ⟨rounds-1,by omega⟩
    rw [flatMap_cons] at hinside
    have hread := readSectors_eq (fun s hs => hinside s (mem_append_left _ hs)) remaining copied
    have hlength : (clusterSectors v x).length=v.sectorsPerCluster := by
      rw [clusterSectors,length_map,length_range]
    have hpos := h.perCluster
    rw [length_cons,Nat.add_mul,Nat.one_mul] at hroom
    rw [readClusters,if_pos ⟨hzero,hlow,hhigh⟩,hread,flatMap_cons,bytesOf_append,take_append,
      bytesOf_length,hlength,← append_assoc]
    dsimp only
    by_cases hdone : remaining-v.sectorsPerCluster*512=0
    · rw [hdone,readClusters_zero,take_zero,append_nil]
    cases cs with
    | nil =>
      rw [length_nil,Nat.zero_mul] at hroom
      omega
    | cons y cs =>
      rw [hlinks x (by simp)]
      exact ih hrest (fun s hs => hinside s (mem_append_right _ hs))
        (fun c hc => hlinks c (mem_cons_of_mem x hc)) (by omega) (by omega) _ hdone

end Reading

section Growth

variable {v : Volume} {d : Disk} {last : Nat}

/-- The clusters marked free, in the order `allocate_cluster` takes them. -/
def freeClusters (v : Volume) (d : Disk) : List Nat :=
  (List.range (v.fatSectors*128)).filter (fun c => 2 ≤ c ∧ nextCluster v c d=0)

theorem mem_freeClusters {c : Nat} : c ∈ freeClusters v d ↔ v.Entry c ∧ nextCluster v c d=0 := by
  rw [freeClusters,mem_filter,mem_range,decide_eq_true_eq,Volume.Entry]
  tauto

theorem FirstFree.freeClusters_eq {c : Nat} (h : FirstFree v d c) :
    freeClusters v d=c :: (freeClusters v d).filter (· ≠ c) := by
  have hmem := mem_freeClusters.mpr ⟨h.entry,h.free⟩
  have hsorted : (freeClusters v d).Pairwise (· < ·) := pairwise_lt_range.filter _
  cases hfree : freeClusters v d with
  | nil =>
    rw [hfree] at hmem
    cases hmem
  | cons a rest =>
    have ha := mem_freeClusters.mp (hfree ▸ mem_cons_self : a ∈ freeClusters v d)
    rw [hfree] at hmem hsorted
    have hrest := (pairwise_cons.mp hsorted).1
    obtain rfl | hmem := mem_cons.mp hmem
    · rw [filter_cons_of_neg (by simp),filter_eq_self.mpr]
      intro x hx
      exact decide_eq_true (Nat.ne_of_gt (hrest x hx))
    · exact absurd ha.2 (h.least a ha.1.1 (hrest c hmem))

/-- A last cluster and the free ones: what growing a chain may change. -/
def Growing (v : Volume) (last : Nat) (d : Disk) (c : Nat) : Prop :=
  c=last ∨ nextCluster v c d=0

/-- One more cluster: allocated and linked behind the last one. -/
theorem growStep_spec (h : v.Sound) (hfat : v.dataStartSector≤d.sectors)
    (hbits : v.fatSectors*128≤2 ^ 28) (hlast : v.Entry last) (hused : nextCluster v last d≠0) :
    (∃ c d₁ d₂, allocateCluster v d=(c,d₁) ∧ v.Entry c ∧ updateFat v last c d₁=(true,d₂) ∧
      FatEdit v (Growing v last d) d d₂ ∧ freeClusters v d=c :: freeClusters v d₂ ∧
      nextCluster v c d₂≠0 ∧ ∀ x<v.fatSectors*128, Growing v c d₂ x → Growing v last d x) ∨
    allocateCluster v d=(0,d) ∧ freeClusters v d=[] := by
  obtain ⟨c,d₁,d₂,halloc,hfirst,hcall,hsectors,hdata,hnext⟩ | ⟨halloc,hnone⟩ :=
    linkCluster_spec h hfat hlast
  · have hc := hfirst.entry
    have hlink : c%2 ^ 28≠0 := by
      have hlow := hc.1
      have hhigh := hc.2
      rw [Nat.mod_eq_of_lt (by omega)]
      omega
    have hne : c≠last := by
      rintro rfl
      exact hused hfirst.free
    have hzero : ∀ x<v.fatSectors*128, nextCluster v x d₂=0 ↔ nextCluster v x d=0 ∧ x≠c := by
      intro x hx
      rw [hnext x hx]
      split_ifs with hxl hxc
      · exact iff_of_false hlink (fun hand => hused (hxl ▸ hand.1))
      · simp [hxc]
      · simp [hxc]
    refine .inl ⟨c,d₁,d₂,halloc,hc,hcall,⟨hsectors,hdata,?_⟩,?_,?_,?_⟩
    · intro x hx hout
      rw [Growing,not_or] at hout
      rw [hnext x hx,if_neg hout.1,if_neg]
      rintro rfl
      exact hout.2 hfirst.free
    · rw [hfirst.freeClusters_eq,freeClusters,freeClusters,filter_filter]
      congr 1
      refine filter_congr (fun x hx => ?_)
      rw [← Bool.decide_and,decide_eq_decide,hzero x (mem_range.mp hx)]
      tauto
    · rw [hnext c hc.2,if_neg hne,if_pos rfl]
      decide
    · rintro x hx (rfl | hfree)
      · exact .inr hfirst.free
      · exact .inr ((hzero x hx).mp hfree).1
  · refine .inr ⟨halloc,eq_nil_iff_forall_not_mem.mpr (fun c hc => ?_)⟩
    have hc := mem_freeClusters.mp hc
    exact hnone c hc.1 hc.2

/-- A chain grows by the first free clusters, as far as there are any. -/
theorem growChain_spec (h : v.Sound) (hfat : v.dataStartSector≤d.sectors)
    (hbits : v.fatSectors*128≤2 ^ 28) (missing : Nat) {clusters : List Nat}
    (hlast : clusters.getLast? = some last) (hentry : v.Entry last)
    (hused : nextCluster v last d≠0) :
    ∃ d', growChain v missing clusters d =
        (decide (missing≤(freeClusters v d).length),
          clusters ++ (freeClusters v d).take missing,d') ∧
      FatEdit v (Growing v last d) d d' := by
  induction missing generalizing clusters last d with
  | zero => exact ⟨d,by simp [growChain],FatEdit.refl v _ d⟩
  | succ missing ih =>
    have hlastD : clusters.getLastD 0=last := by
      rw [getLastD_eq_getLast?,hlast]
      rfl
    rw [growChain]
    obtain ⟨c,d₁,d₂,halloc,hc,hcall,hedit,hfree,hmark,hgrowing⟩ | ⟨halloc,hfree⟩ :=
      growStep_spec h hfat hbits hentry hused
    · have hne : c≠0 := by
        have := hc.1
        omega
      obtain ⟨d',hgrow,hedit'⟩ := ih (by rw [hedit.sectors]; exact hfat)
        (show (clusters ++ [c]).getLast? = some c by simp) hc hmark
      refine ⟨d',?_,hedit.trans hedit' (fun x _ hx => hx) hgrowing⟩
      rw [halloc]
      dsimp only
      rw [if_neg hne,hlastD,hcall]
      dsimp only
      rw [hgrow,hfree,take_succ_cons,append_assoc,length_cons]
      simp
    · refine ⟨d,?_,FatEdit.refl v _ d⟩
      rw [halloc,hfree]
      simp

end Growth

section Writing

variable {v : Volume} {d : Disk} {target : Position} {x first rounds : Nat}

/-- The data is written as far as the device goes, and to no other sector. -/
theorem writeSectors_spec (buffer : List UInt8) (sectors : List Nat) (copied : Nat) (d : Disk) :
    ∃ d', writeSectors buffer sectors copied d=(decide (∀ s ∈ sectors, s<d.sectors),d') ∧
      d'.sectors=d.sectors ∧ ∀ s ∉ sectors, d'.data s=d.data s := by
  induction sectors generalizing copied d with
  | nil => exact ⟨d,by simp [writeSectors],rfl,fun _ _ => rfl⟩
  | cons s rest ih =>
    rw [writeSectors]
    by_cases hs : s<d.sectors
    · rw [blockWriteSector_eq hs]
      obtain ⟨d',hcall,hsectors,hsame⟩ := ih (copied+min (buffer.length-copied) 512) (d.write s _)
      refine ⟨d',?_,hsectors,fun t ht => ?_⟩
      · dsimp only
        rw [hcall]
        simp [hs]
      · rw [mem_cons,not_or] at ht
        rw [hsame t ht.2,Disk.write_data_of_ne ht.1]
    · rw [blockWriteSector,if_neg hs]
      exact ⟨d,by simp [hs],rfl,fun _ _ => rfl⟩

/-- Sectors of the device that the buffer fills are written with it. -/
theorem writeSectors_fill (buffer : List UInt8) {sectors : List Nat} (copied : Nat)
    (hinside : ∀ s ∈ sectors, s<d.sectors) (hnodup : sectors.Nodup)
    (hfull : copied+sectors.length*512≤buffer.length) (rest : List Nat) :
    ∃ d', writeSectors buffer (sectors ++ rest) copied d =
        writeSectors buffer rest (copied+sectors.length*512) d' ∧
      d'.sectors=d.sectors ∧ (∀ s ∉ sectors, d'.data s=d.data s) ∧
      bytesOf d' sectors=(buffer.drop copied).take (sectors.length*512) := by
  induction sectors generalizing copied d with
  | nil => exact ⟨d,by simp,rfl,fun _ _ => rfl,by simp [bytesOf]⟩
  | cons s sectors ih =>
    obtain ⟨hout,hnodup⟩ := nodup_cons.mp hnodup
    rw [length_cons,Nat.add_mul,Nat.one_mul] at hfull ⊢
    have hamount : min (buffer.length-copied) 512=512 := by omega
    rw [cons_append,writeSectors,hamount,blockWriteSector_eq (hinside s mem_cons_self)]
    obtain ⟨d',hcall,hsectors,hsame,hbytes⟩ := ih (copied+512)
      (d := d.write s (fun j => if j<512 then buffer.getD (copied+j) 0 else 0))
      (fun t ht => hinside t (mem_cons_of_mem s ht)) hnodup (by omega)
    have hload : load 0 512 (d'.data s)=(buffer.drop copied).take 512 := by
      rw [hsame s hout,Disk.write_data_self]
      apply ext_getElem
      · rw [load_length,length_take,length_drop]
        omega
      intro i hi _
      rw [load_length] at hi
      simp only [load,getElem_map,getElem_range,Nat.zero_add,if_pos hi,getElem_take,getElem_drop]
      exact getD_eq_getElem _ _ (by omega)
    refine ⟨d',?_,hsectors,fun t ht => ?_,?_⟩
    · rw [Nat.add_comm (sectors.length*512),← Nat.add_assoc]
      exact hcall
    · rw [mem_cons,not_or] at ht
      rw [hsame t ht.2,Disk.write_data_of_ne ht.1]
    · rw [bytesOf,flatMap_cons,← bytesOf,hload,hbytes,Nat.add_comm (sectors.length*512),
        take_add,drop_drop]

theorem Volume.Sound.nodup_sectors (h : v.Sound) {cs : List Nat} (hentries : ∀ c ∈ cs, v.Entry c)
    (hnodup : cs.Nodup) : (cs.flatMap (clusterSectors v)).Nodup := by
  rw [nodup_flatMap]
  refine ⟨fun c hc => ?_,List.Nodup.pairwise_of_forall_ne hnodup ?_⟩
  · refine List.Nodup.map_on ?_ nodup_range
    intro i hi j hj heq
    rw [h.sector_eq (hentries c hc) (mem_range.mp hi),
      h.sector_eq (hentries c hc) (mem_range.mp hj)] at heq
    omega
  · intro a ha b hb hne s hsa hsb
    have := h.mem_clusterSectors (hentries a ha) hsa
    have := h.mem_clusterSectors (hentries b hb) hsb
    have := h.clusterSector_apart (hentries a ha) (hentries b hb) hne
    omega

/-- Clusters lie on the device exactly if all their sectors do. -/
theorem Volume.Sound.inside_iff (h : v.Sound) {cs : List Nat} (hentries : ∀ c ∈ cs, v.Entry c) :
    (∀ s ∈ cs.flatMap (clusterSectors v), s<d.sectors) ↔ ∀ c ∈ cs, v.Inside d c := by
  have hpos := h.perCluster
  constructor
  · intro hall c hc
    have hlast : clusterSector v c+(v.sectorsPerCluster-1) ∈ clusterSectors v c := by
      rw [← h.sector_eq (hentries c hc) (show v.sectorsPerCluster-1<v.sectorsPerCluster by omega)]
      exact mem_map_of_mem (mem_range.mpr (by omega))
    have := hall _ (mem_flatMap.mpr ⟨c,hc,hlast⟩)
    rw [Volume.Inside]
    omega
  · intro hall s hs
    obtain ⟨c,hc,hs⟩ := mem_flatMap.mp hs
    have hin := hall c hc
    rw [Volume.Inside] at hin
    have := h.mem_clusterSectors (hentries c hc) hs
    omega

theorem writeData_inside (h : v.Sound) (buffer : List UInt8) {clusters : List Nat}
    (hclusters : ∀ c ∈ clusters, v.Inside d c ∧ v.Entry c)
    (htarget : target.sector<d.sectors) :
    ∃ d', writeData v buffer clusters target d=(true,d') := by
  have hinside := (h.inside_iff (fun c hc => (hclusters c hc).2)).mpr
    (fun c hc => (hclusters c hc).1)
  obtain ⟨d₁,hwrite,hsectors,-⟩ :=
    writeSectors_spec buffer (clusters.flatMap (clusterSectors v)) 0 d
  rw [← hsectors] at htarget
  rw [writeData,hwrite,decide_eq_true hinside]
  dsimp only
  rw [writeSize,blockReadSector_eq htarget]
  dsimp only
  rw [blockWriteSector_eq htarget]
  exact ⟨_,rfl⟩

theorem Chain.after {before after : List Nat}
    (h : Chain v d (before ++ x :: after) first) : Chain v d after (nextCluster v x d) := by
  induction before generalizing first with
  | nil =>
    obtain ⟨rfl,-,-,hrest⟩ := h
    exact hrest
  | cons y before ih => exact ih h.2.2.2

/-- A chain is cut behind one of its clusters. -/
theorem cutChain_spec (h : v.Sound) (hfat : v.dataStartSector≤d.sectors)
    {before after : List Nat} (hchain : FileChain v d first (before ++ x :: after))
    (hrounds : endOfChain<rounds) :
    ∃ d', cutChain v rounds x d=some (true,d') ∧ d'.sectors=d.sectors := by
  have hx := hchain.entries x (by simp)
  obtain ⟨d₁,hcall,hup⟩ := updateFat_spec h hfat hx.2 0x0FFFFFFF
  have hedit := hup.fatEdit h hfat hx.2
  have hfat₁ : v.dataStartSector≤d₁.sectors := by
    rw [hup.sectors]
    exact hfat
  have hentries : ∀ c ∈ after, v.Entry c := fun c hc => hchain.entries c (by simp [hc])
  have hnodup := (nodup_append.mp hchain.nodup).2.1
  have hout := (nodup_cons.mp hnodup).1
  have hrest : Chain v d₁ after (nextCluster v x d) := by
    refine hchain.links.after.congr (fun y hy => hedit.others y (hentries y hy).2 ?_)
    rintro rfl
    exact hout hy
  have hlength : after.length<rounds := by
    have hle := hchain.length_lt
    rw [length_append,length_cons] at hle
    omega
  obtain ⟨d',hfree,hedit',-⟩ := freeChain_spec h hfat₁ hrest hentries
    (nodup_cons.mp hnodup).2 hlength
  refine ⟨d',?_,hedit'.sectors.trans hup.sectors⟩
  rw [cutChain,hcall]
  exact hfree

theorem requiredClusters_pos (v : Volume) (size : Nat) : 0<requiredClusters v size := by
  rw [requiredClusters]
  split_ifs with hzero
  · exact Nat.one_pos
  · exact Nat.pos_of_ne_zero hzero

/-- What a write has left of a file when it fails behind the lookup. -/
structure FailedWrite (v : Volume) (cs : List Nat) (d d' : Disk) : Prop where
  edit : ClusterEdit v (fun c => c ∈ cs ∨ nextCluster v c d=0) d d'
  links : ∀ c ∈ cs.dropLast, nextCluster v c d'=nextCluster v c d

/-- A chain that grows keeps the links between its clusters. -/
theorem FileChain.grown {cs : List Nat} {last : Nat} {d' : Disk} (hcs : FileChain v d first cs)
    (h : v.Sound) (hlast : cs.getLast? = some last) (hedit : FatEdit v (Growing v last d) d d') :
    FailedWrite v cs d d' where
  edit := by
    have hclusters := hedit.clusters h
    have hsub : ∀ c, ¬ (c ∈ cs ∨ nextCluster v c d=0) → ¬ Growing v last d c := by
      intro c hout hgrowing
      exact hout (hgrowing.imp_left (fun heq : c=last => heq ▸ mem_of_getLast? hlast))
    exact ⟨hedit.sectors,fun c hc hout => hclusters.others c hc (hsub c hout),
      fun c hc hout => hclusters.data c hc (hsub c hout)⟩
  links := by
    intro c hc
    have hin := mem_of_mem_dropLast hc
    refine hedit.others c (hcs.entries c hin).2 (fun hgrowing => ?_)
    obtain rfl | hzero := hgrowing
    · have hnodup := hcs.nodup
      rw [← dropLast_append_getLast? c hlast] at hnodup
      exact (nodup_append.mp hnodup).2.2 c hc c (mem_singleton_self c) rfl
    · exact hcs.links.next_ne_zero c hin hzero

/-- With a cluster past the end of the device among the new ones, the data of the old ones is
written over before the call fails. -/
theorem writeData_overrun (h : v.Sound) (buffer : List UInt8) (target : Position)
    {cs more : List Nat} {d₁ : Disk}
    (hcs : FileChain v d first cs) (hgrown : FailedWrite v cs d d₁)
    (hmore : ∀ c ∈ more, v.Entry c ∧ nextCluster v c d=0) (hout : ∃ c ∈ more, ¬ v.Inside d c)
    (hfull : cs.length*(v.sectorsPerCluster*512)≤buffer.length) :
    ∃ d', writeData v buffer (cs ++ more) target d₁=(false,d') ∧ FailedWrite v cs d d' ∧
      bytesOf d' (cs.flatMap (clusterSectors v)) =
        buffer.take (cs.length*(v.sectorsPerCluster*512)) := by
  have hentries : ∀ c ∈ cs ++ more, v.Entry c := by
    intro c hc
    obtain hc | hc := mem_append.mp hc
    · exact hcs.entries c hc
    · exact (hmore c hc).1
  have hsectors := hgrown.edit.sectors
  have hcsInside : ∀ s ∈ cs.flatMap (clusterSectors v), s<d₁.sectors := by
    rw [hsectors]
    exact (h.inside_iff hcs.entries).mpr hcs.inside
  have hlength : (cs.flatMap (clusterSectors v)).length*512 =
      cs.length*(v.sectorsPerCluster*512) := by
    simp [length_flatMap,clusterSectors,Nat.mul_assoc]
  obtain ⟨d₂,hfill,hsectors₂,hsame₂,hbytes⟩ := writeSectors_fill buffer 0 hcsInside
    (h.nodup_sectors hcs.entries hcs.nodup) (by omega) (more.flatMap (clusterSectors v))
  obtain ⟨d',hcall,hsectors',hsame'⟩ :=
    writeSectors_spec buffer (more.flatMap (clusterSectors v))
      (0+(cs.flatMap (clusterSectors v)).length*512) d₂
  have hfails : ¬ ∀ s ∈ more.flatMap (clusterSectors v), s<d₂.sectors := by
    rw [hsectors₂,hsectors,h.inside_iff (fun c hc => (hmore c hc).1)]
    obtain ⟨c,hc,hpast⟩ := hout
    exact fun hall => hpast (hall c hc)
  -- nothing but the sectors of the old and the new clusters is written
  have hdata : ∀ s, (∀ c ∈ cs ++ more, s ∉ clusterSectors v c) → d'.data s=d₁.data s := by
    intro s hs
    rw [hsame' s,hsame₂ s]
    · intro hmem
      obtain ⟨c,hc,hmem⟩ := mem_flatMap.mp hmem
      exact hs c (mem_append_left _ hc) hmem
    · intro hmem
      obtain ⟨c,hc,hmem⟩ := mem_flatMap.mp hmem
      exact hs c (mem_append_right _ hc) hmem
  have hfat : DataEdit v d₁ d' := by
    refine ⟨hsectors'.trans hsectors₂,fun s hs => hdata s (fun c hc hmem => ?_)⟩
    have := h.mem_clusterSectors (hentries c hc) hmem
    have := h.clusterSector_eq (hentries c hc)
    omega
  refine ⟨d',?_,⟨⟨hfat.sectors.trans hsectors,fun c hc hkeep => ?_,fun c hc hkeep s hle hlt => ?_⟩,
    fun c hc => ?_⟩,?_⟩
  · rw [writeData,flatMap_append,hfill,hcall,decide_eq_false hfails]
  · rw [hfat.nextCluster h hc,hgrown.edit.others c hc hkeep]
  · rw [hdata s,hgrown.edit.data c hc hkeep s hle hlt]
    intro c' hc' hmem
    have hne : c≠c' := by
      rintro rfl
      obtain hc' | hc' := mem_append.mp hc'
      · exact hkeep (.inl hc')
      · exact hkeep (.inr (hmore c hc').2)
    have := h.mem_clusterSectors (hentries c' hc') hmem
    have := h.clusterSector_apart hc (hentries c' hc') hne
    omega
  · rw [hfat.nextCluster h (hcs.entries c (mem_of_mem_dropLast hc)).2,hgrown.links c hc]
  · rw [← hlength,← drop_zero (l := buffer),← hbytes]
    refine bytesOf_congr (fun s hs => hsame' s (fun hmem => ?_))
    obtain ⟨a,ha,hsa⟩ := mem_flatMap.mp hs
    obtain ⟨b,hb,hsb⟩ := mem_flatMap.mp hmem
    have hne : a≠b := by
      rintro rfl
      exact hcs.links.next_ne_zero a ha (hmore a hb).2
    have := h.mem_clusterSectors (hcs.entries a ha) hsa
    have := h.mem_clusterSectors (hmore b hb).1 hsb
    have := h.clusterSector_apart (hcs.entries a ha) (hmore b hb).1 hne
    omega

theorem locatePathEntry_member (hwf : WellFormed v d) {path : Name} {e : Fat32Entry}
    (h : locatePathEntry v path d=some (e,target)) :
    ∃ k directory m, DirectoryAt v d k directory ∧ m ∈ members v d directory ∧
      m.place=target ∧ m.entry=e := by
  rw [locatePathEntry] at h
  cases hsplit : splitParent path with
  | none =>
    rw [hsplit] at h
    cases h
  | some parts =>
    obtain ⟨parent,leaf⟩ := parts
    rw [hsplit] at h
    dsimp only at h
    cases hresolve : resolveDirectory v parent d with
    | none =>
      rw [hresolve] at h
      cases h
    | some directory =>
      rw [hresolve] at h
      dsimp only at h
      obtain ⟨k,hk⟩ := hwf.resolveParts .root hresolve
      obtain ⟨m,hm,hplace,hentry⟩ :=
        findEntry_member ((hwf.directory hk).readable hwf.sound) h
      exact ⟨k,directory,m,hk,hm,hplace,hentry⟩

theorem Chain.first_lt {cs : List Nat} (h : Chain v d cs first) (hne : cs≠[]) :
    first<endOfChain := by
  cases cs with
  | nil => exact absurd rfl hne
  | cons x cs => exact h.2.2.1

/-- How many clusters a write adds to a file. -/
def missingClusters (v : Volume) (buffer : List UInt8) (e : Fat32Entry) (d : Disk) : Nat :=
  requiredClusters v buffer.length-(visitedClusters v d 32 e.cluster).length

/-- The file can be written, there are free clusters enough for it, and one of those it gets lies
past the end of the device. -/
structure Overruns (v : Volume) (path : Name) (buffer : List UInt8) (e : Fat32Entry) (d : Disk) :
    Prop where
  size : buffer.length<2 ^ 32
  file : ∃ target, locatePathEntry v path d=some (e,target)
  regular : e.isDirectory=false ∧ 2 ≤ e.cluster ∧ e.cluster<endOfChain
  required : requiredClusters v buffer.length≤32
  enough : missingClusters v buffer e d≤(freeClusters v d).length
  outside : ∃ c ∈ (freeClusters v d).take (missingClusters v buffer e d), ¬ v.Inside d c

/-- How `fat32_write_file` ends. -/
inductive WriteOutcome (v : Volume) (path : Name) (buffer : List UInt8) (d : Disk) :
    Bool → Disk → Prop
  | written {d' : Disk} (hsafe : ∀ e, ¬ Overruns v path buffer e d) :
      WriteOutcome v path buffer d true d'
  | same (hsafe : ∀ e, ¬ Overruns v path buffer e d) : WriteOutcome v path buffer d false d
  | failed {k : Option Position} {directory : Nat} {m : Visible} {cs : List Nat} {d' : Disk}
      (hdir : DirectoryAt v d k directory) (hm : m ∈ members v d directory)
      (hlocate : locatePathEntry v path d=some (m.entry,m.place))
      (hfile : m.entry.isDirectory=false) (hcluster : 2 ≤ m.entry.cluster)
      (hchain : FileChain v d m.entry.cluster cs) (hfailed : FailedWrite v cs d d')
      (hbytes : bytesOf d' (cs.flatMap (clusterSectors v)) =
          bytesOf d (cs.flatMap (clusterSectors v)) ∧ (∀ e, ¬ Overruns v path buffer e d) ∨
        bytesOf d' (cs.flatMap (clusterSectors v)) =
          buffer.take (cs.length*(v.sectorsPerCluster*512)) ∧ Overruns v path buffer m.entry d) :
      WriteOutcome v path buffer d false d'

theorem Overruns.entry_eq {path : Name} {buffer : List UInt8} {e e' : Fat32Entry}
    (h : Overruns v path buffer e d) (hlocate : locatePathEntry v path d=some (e',target)) :
    e=e' := by
  obtain ⟨target',hfile⟩ := h.file
  rw [hlocate] at hfile
  cases hfile
  rfl

theorem required_full {size : Nat} {n : Nat} (hlt : n<requiredClusters v size) (hn : 0<n) :
    n*(v.sectorsPerCluster*512) ≤ size := by
  rw [requiredClusters] at hlt
  generalize v.sectorsPerCluster*512=bytes at hlt ⊢
  split_ifs at hlt
  · omega
  · have hle : (n+1)*bytes ≤ size+bytes-1 :=
      (Nat.mul_le_mul_right bytes hlt).trans (Nat.div_mul_le_self _ _)
    rw [Nat.add_mul,Nat.one_mul] at hle
    omega

/-- `fat32_write_file` writes the file, or fails before it writes data, or overruns the device. -/
theorem writeFile_outcome (hwf : WellFormed v d) (hbits : v.fatSectors*128≤2 ^ 28) (path : Name)
    (buffer : List UInt8) (hrounds : endOfChain<rounds) :
    ∃ ok d', writeFile v rounds path buffer d=some (ok,d') ∧
      WriteOutcome v path buffer d ok d' := by
  rw [writeFile]
  by_cases hsize : 2 ^ 32≤buffer.length
  · rw [if_pos hsize]
    exact ⟨false,d,rfl,.same fun e h => absurd h.size (Nat.not_lt.mpr hsize)⟩
  rw [if_neg hsize]
  cases hlocate : locatePathEntry v path d with
  | none =>
    refine ⟨false,d,rfl,.same fun e h => ?_⟩
    obtain ⟨target,hfile⟩ := h.file
    rw [hlocate] at hfile
    cases hfile
  | some found =>
    obtain ⟨e,target⟩ := found
    dsimp only
    by_cases hbad : e.isDirectory ∨ e.cluster<2
    · rw [if_pos hbad]
      refine ⟨false,d,rfl,.same fun e' h => ?_⟩
      obtain ⟨hdir,hlow,-⟩ := h.entry_eq hlocate ▸ h.regular
      rw [hdir] at hbad
      simp only [Bool.false_eq_true,false_or] at hbad
      omega
    rw [if_neg hbad]
    rw [not_or,Bool.not_eq_true] at hbad
    have hcluster := Nat.not_lt.mp hbad.2
    obtain ⟨k,directory,m,hk,hm,rfl,rfl⟩ := locatePathEntry_member hwf hlocate
    obtain ⟨cs,hcs⟩ := hwf.chains _ _ (.member hk hm hcluster)
    have htarget := (hwf.directory hk).readable hwf.sound _ (mem_members hm).1
    have hvisited := hcs.links.visited 32
    have hpos := requiredClusters_pos v buffer.length
    have hclusters : ∀ c ∈ cs, v.Inside d c ∧ v.Entry c :=
      fun c hc => ⟨hcs.inside c hc,hcs.entries c hc⟩
    have hmissing : missingClusters v buffer m.entry d =
        requiredClusters v buffer.length-(cs.take 32).length := by
      rw [missingClusters,hvisited]
    rw [hvisited]
    by_cases hnone : cs.take 32=[] ∨ 32<requiredClusters v buffer.length
    · rw [if_pos hnone]
      refine ⟨false,d,rfl,.same fun e h => ?_⟩
      obtain hempty | hmany := hnone
      · have hhigh := (h.entry_eq hlocate ▸ h.regular).2.2
        rw [take_eq_nil_iff] at hempty
        have hnil : cs=[] := hempty.resolve_left (by decide)
        have hend : Chain v d [] m.entry.cluster := hnil ▸ hcs.links
        rw [Chain] at hend
        omega
      · exact absurd h.required (Nat.not_le.mpr hmany)
    rw [if_neg hnone]
    rw [not_or] at hnone
    by_cases hshort : (cs.take 32).length<requiredClusters v buffer.length
    · have htake : cs.take 32=cs := by
        rw [length_take] at hshort
        exact take_of_length_le (by omega)
      rw [htake] at hnone hshort hmissing ⊢
      obtain ⟨last,hlast⟩ := Option.ne_none_iff_exists'.mp
        (mt List.getLast?_eq_none_iff.mp hnone.1)
      have hmem := mem_of_getLast? hlast
      obtain ⟨d₁,hgrow,hedit⟩ := growChain_spec hwf.sound hwf.fat hbits
        (missingClusters v buffer m.entry d) hlast (hcs.entries _ hmem)
        (hcs.links.next_ne_zero _ hmem)
      have hgrown := hcs.grown hwf.sound hlast hedit
      rw [← hmissing,hgrow]
      by_cases henough : missingClusters v buffer m.entry d≤(freeClusters v d).length
      · have hmore : ∀ c ∈ (freeClusters v d).take (missingClusters v buffer m.entry d),
            v.Entry c ∧ nextCluster v c d=0 := fun c hc => mem_freeClusters.mp (mem_of_mem_take hc)
        have hlength : (cs ++ (freeClusters v d).take (missingClusters v buffer m.entry d)).length =
            requiredClusters v buffer.length := by
          rw [length_append,length_take]
          omega
        rw [decide_eq_true henough]
        dsimp only
        rw [if_neg (by omega),take_of_length_le (by omega)]
        by_cases hover : ∃ c ∈ (freeClusters v d).take (missingClusters v buffer m.entry d),
            ¬ v.Inside d c
        · obtain ⟨d',hwrite,hfailed,hbytes⟩ := writeData_overrun hwf.sound
            buffer m.place hcs hgrown hmore hover (required_full hshort (length_pos_of_mem hmem))
          rw [hwrite]
          exact ⟨false,d',rfl,.failed hk hm hlocate hbad.1 hcluster hcs hfailed
            (.inr ⟨hbytes,by omega,⟨_,hlocate⟩,⟨hbad.1,hcluster,hcs.links.first_lt hnone.1⟩,
              Nat.not_lt.mp hnone.2,henough,hover⟩)⟩
        · have hall : ∀ c ∈ cs ++ (freeClusters v d).take (missingClusters v buffer m.entry d),
              v.Inside d₁ c ∧ v.Entry c := by
            intro c hc
            rw [Volume.Inside,hedit.sectors]
            obtain hc | hc := mem_append.mp hc
            · exact hclusters c hc
            · exact ⟨not_not.mp (fun hout => hover ⟨c,hc,hout⟩),(hmore c hc).1⟩
          obtain ⟨d',hwrite⟩ := writeData_inside hwf.sound buffer hall
            (show m.place.sector<d₁.sectors by rw [hedit.sectors]; exact htarget)
          rw [hwrite]
          exact ⟨true,d',rfl,.written fun e h => hover (h.entry_eq hlocate ▸ h.outside)⟩
      · rw [decide_eq_false henough]
        have hdata : ∀ s ∈ cs.flatMap (clusterSectors v), d₁.data s=d.data s := by
          intro s hs
          obtain ⟨c,hc,hs⟩ := mem_flatMap.mp hs
          have := hwf.sound.mem_clusterSectors (hcs.entries c hc) hs
          have := hwf.sound.clusterSector_eq (hcs.entries c hc)
          exact hedit.data s (by omega)
        exact ⟨false,d₁,rfl,.failed hk hm hlocate hbad.1 hcluster hcs hgrown (.inl
          ⟨bytesOf_congr hdata,fun e h => henough (h.entry_eq hlocate ▸ h.enough)⟩)⟩
    · have hzero : missingClusters v buffer m.entry d=0 := by omega
      have hsafe : ∀ e, ¬ Overruns v path buffer e d := by
        intro e h
        obtain ⟨c,hc,-⟩ := h.entry_eq hlocate ▸ h.outside
        rw [hzero,take_zero] at hc
        cases hc
      rw [← hmissing,hzero,growChain]
      dsimp only
      have hall : ∀ c ∈ (cs.take 32).take (requiredClusters v buffer.length),
          v.Inside d c ∧ v.Entry c :=
        fun c hc => hclusters c (mem_of_mem_take (mem_of_mem_take hc))
      by_cases hlong : requiredClusters v buffer.length<(cs.take 32).length
      · rw [if_pos hlong]
        have hlt : requiredClusters v buffer.length-1<cs.length := by
          rw [length_take] at hlong
          omega
        have hlast : (cs.take 32).getD (requiredClusters v buffer.length-1) 0 =
            cs[requiredClusters v buffer.length-1] := by
          rw [getD_eq_getElem _ _ (by omega),getElem_take]
        have hcut : FileChain v d m.entry.cluster (cs.take (requiredClusters v buffer.length-1) ++
            cs[requiredClusters v buffer.length-1] ::
              cs.drop (requiredClusters v buffer.length-1+1)) := by
          rw [getElem_cons_drop,take_append_drop]
          exact hcs
        obtain ⟨d₁,hcall,hsectors⟩ := cutChain_spec hwf.sound hwf.fat hcut hrounds
        obtain ⟨d',hwrite⟩ := writeData_inside (d := d₁) hwf.sound buffer
          (fun c hc => by rw [Volume.Inside,hsectors]; exact hall c hc)
          (show m.place.sector<d₁.sectors by rw [hsectors]; exact htarget)
        rw [hlast,hcall]
        dsimp only
        rw [hwrite]
        exact ⟨true,d',rfl,.written hsafe⟩
      · rw [if_neg hlong]
        obtain ⟨d',hwrite⟩ := writeData_inside hwf.sound buffer hall htarget
        rw [hwrite]
        exact ⟨true,d',rfl,.written hsafe⟩

end Writing

section Failures

variable {v : Volume} {d d' : Disk} {k : Option Position} {m : Visible}

/-- While the directories stay, paths lead where they led. -/
theorem WellFormed.resolveParts_same (hwf : WellFormed v d)
    (hsame : ∀ k directory, DirectoryAt v d k directory → SameDirectory v d d' directory)
    {parts : List Name} {current : Nat} (h : DirectoryAt v d k current) :
    Fat32.resolveParts v d' parts current=Fat32.resolveParts v d parts current := by
  induction parts generalizing k current with
  | nil => rfl
  | cons part parts ih =>
    rw [Fat32.resolveParts,Fat32.resolveParts,
      (hsame k current h).findEntry hwf.sound (hwf.directory h)]
    split_ifs
    · rfl
    · exact ih h
    · rfl
    cases hfind : findEntry v current part d with
    | none => rfl
    | some found =>
      obtain ⟨e,target⟩ := found
      dsimp only
      split_ifs with hbad
      · rfl
      · rw [not_or] at hbad
        obtain ⟨m,hm,-,rfl⟩ := findEntry_member ((hwf.directory h).readable hwf.sound) hfind
        exact ih (.child h hm (bne_iff_ne.mpr hbad.1) (Nat.not_lt.mp hbad.2))

theorem WellFormed.locatePathEntry_same (hwf : WellFormed v d)
    (hsame : ∀ k directory, DirectoryAt v d k directory → SameDirectory v d d' directory)
    (path : Name) : locatePathEntry v path d'=locatePathEntry v path d := by
  rw [locatePathEntry,locatePathEntry]
  cases splitParent path with
  | none => rfl
  | some parts =>
    dsimp only
    rw [resolveDirectory,resolveDirectory,hwf.resolveParts_same hsame .root]
    cases hresolve : Fat32.resolveParts v d (pathParts parts.1) v.rootCluster with
    | none => rfl
    | some directory =>
      obtain ⟨k,hk⟩ := hwf.resolveParts .root hresolve
      exact (hsame k directory hk).findEntry hwf.sound (hwf.directory hk) parts.2

theorem DirectoryAt.ne_file {directory parent : Nat}
    (h : DirectoryAt v d k directory) (hm : m ∈ members v d parent)
    (hfile : m.entry.isDirectory=false) : k≠some m.place := by
  cases h with
  | root => simp
  | @child k parent' m' hdir hm' hattr hcluster =>
    intro heq
    have hplace : m'.place=m.place := Option.some.inj heq
    have hslot : m'.slot=m.slot := by
      rw [(mem_members hm').2,(mem_members hm).2,hplace]
    rw [Visible.entry,hslot] at hattr
    rw [Visible.entry,hattr] at hfile
    cases hfile

/-- A write that fails behind the lookup leaves every directory. -/
theorem WellFormed.failed_directories (hwf : WellFormed v d) {parent : Nat}
    (hk : DirectoryAt v d k parent) (hm : m ∈ members v d parent)
    (hfile : m.entry.isDirectory=false) (hcluster : 2 ≤ m.entry.cluster) {cs : List Nat}
    (hcs : FileChain v d m.entry.cluster cs) (hfailed : FailedWrite v cs d d')
    (k' : Option Position) (directory : Nat) (hdir : DirectoryAt v d k' directory) :
    SameDirectory v d d' directory := by
  refine hfailed.edit.same hwf.sound (hwf.directory hdir) (fun c hc hedited => ?_)
  obtain ⟨as,has⟩ := hwf.chains _ _ hdir.holder
  rw [has.links.visited] at hc
  have hmem := mem_of_mem_take hc
  obtain hin | hzero := hedited
  · exact hwf.apart _ _ _ _ _ _ hdir.holder (.member hk hm hcluster) (hdir.ne_file hm hfile) has
      hcs c hmem hin
  · exact has.links.next_ne_zero c hmem hzero

/-- A file has the size and the bytes it had. -/
def ContentsKept (v : Volume) (path : Name) (d d' : Disk) : Prop :=
  statFile v path d'=statFile v path d ∧
    ∀ capacity, readFile v path capacity d'=readFile v path capacity d

/-- When `fat32_write_file` fails, the file has the size and the bytes it had, exactly if the call
does not overrun the device, or writes what the file holds. -/
theorem failed_write_keeps_contents (v : Volume) (d : Disk) (hwf : WellFormed v d)
    (hbits : v.fatSectors*128≤2 ^ 28) (path : Name) (buffer : List UInt8) (rounds : Nat)
    (hrounds : endOfChain<rounds) :
    ∃ ok d', writeFile v rounds path buffer d=some (ok,d') ∧
      ((ok=false → ContentsKept v path d d') ↔
        ∀ e, Overruns v path buffer e d → readFile v path e.size d=some (buffer.take e.size)) := by
  obtain ⟨ok,d',hcall,hout⟩ := writeFile_outcome hwf hbits path buffer hrounds
  refine ⟨ok,d',hcall,?_⟩
  cases hout with
  | written hsafe => exact iff_of_true (by simp) (fun e h => absurd h (hsafe e))
  | same hsafe => exact iff_of_true (fun _ => ⟨rfl,fun _ => rfl⟩) (fun e h => absurd h (hsafe e))
  | @failed k directory m cs _ hk hm hlocate hfile hcluster hchain hfailed hbytes =>
    have hlocate' : locatePathEntry v path d'=some (m.entry,m.place) := by
      rw [hwf.locatePathEntry_same
        (hwf.failed_directories hk hm hfile hcluster hchain hfailed),hlocate]
    have hroom := hwf.sizes _ _ _ _ hk hm hfile hchain
    have hinside := (hwf.sound.inside_iff (d := d) hchain.entries).mpr hchain.inside
    have hread : ∀ {x : Disk}, locatePathEntry v path x=some (m.entry,m.place) →
        x.sectors=d.sectors → (∀ c ∈ cs.dropLast, nextCluster v c x=nextCluster v c d) →
        ∀ capacity, readFile v path capacity x =
          some ((bytesOf x (cs.flatMap (clusterSectors v))).take (min m.entry.size capacity)) := by
      intro x hx hsectors hlinks capacity
      rw [readFile,hx]
      dsimp only
      rw [if_neg (by simp [hfile]),readClusters_eq hwf.sound hchain.links
        (by rw [hsectors]; exact hinside) hlinks ((Nat.min_le_left _ _).trans hroom)
        (Nat.le_refl _)]
      rfl
    have hnew := hread hlocate' hfailed.edit.sectors hfailed.links
    have hold := hread hlocate rfl (fun _ _ => rfl)
    have hkept : ContentsKept v path d d' ↔
        (bytesOf d' (cs.flatMap (clusterSectors v))).take m.entry.size =
          (bytesOf d (cs.flatMap (clusterSectors v))).take m.entry.size := by
      constructor
      · intro h
        have heq := h.2 m.entry.size
        rw [hnew,hold,Nat.min_self] at heq
        exact Option.some.inj heq
      · intro h
        refine ⟨by rw [statFile,statFile,hlocate,hlocate'],fun capacity => ?_⟩
        rw [hnew,hold,Nat.min_comm,← take_take,h,take_take]
    rw [forall_prop_of_true rfl,hkept]
    obtain ⟨hsame,hsafe⟩ | ⟨hwritten,hover⟩ := hbytes
    · exact iff_of_true (by rw [hsame]) (fun e h => absurd h (hsafe e))
    · rw [hwritten,take_take,Nat.min_eq_left hroom]
      constructor
      · intro h e hoverrun
        obtain rfl := hoverrun.entry_eq hlocate
        rw [hold,Nat.min_self,h]
      · intro h
        have heq := h _ hover
        rw [hold,Nat.min_self] at heq
        exact (Option.some.inj heq).symm

/-- The file `A` of one byte in cluster 3, and both clusters of the device in use. -/
def fileDisk (fat : ByteMemory) : Disk :=
  ⟨4,fun s i =>
    if s=1 then fat i
    else if s=2 then
      if i=0 then 65
      else if i<11 then space
      else if i=11 then 0x20
      else if i=26 then 3
      else if i=28 then 1
      else 0
    else if s=3 ∧ i=0 then 120
    else 0⟩

/-- No entry of the FAT is free, or those past the end of the device are. -/
def fullFat : ByteMemory := fun _ => 0xFF
def slackFat : ByteMemory := fun i => if i<16 then 0xFF else 0

theorem fileDisk_wellFormed {fat : ByteMemory}
    (hnext : nextCluster sampleVolume 2 (fileDisk fat)=0x0FFFFFFF ∧
      nextCluster sampleVolume 3 (fileDisk fat)=0x0FFFFFFF)
    (hroot : (members sampleVolume (fileDisk fat) 2).map (fun m => (m.place,m.entry)) =
      [(⟨2,0⟩,⟨3,1,0x20⟩)]) :
    WellFormed sampleVolume (fileDisk fat) :=
  wellFormed_of_single sampleVolume_sound (by show 2≤4; decide) hroot
    (fun h => absurd h (by decide)) (sampleVolume_chain rfl (.inl rfl) hnext.1)
    (sampleVolume_chain rfl (.inr rfl) hnext.2) (by decide) (fun _ => by decide)

/-- The second cluster lies past the end of the device, but the buffer begins with the byte the file
holds. -/
theorem same_byte_keeps_file :
    ∃ ok d', writeFile sampleVolume 0x10000000 [65] (List.replicate 513 120) (fileDisk slackFat) =
        some (ok,d') ∧
      (ok=false → ContentsKept sampleVolume [65] (fileDisk slackFat) d') := by
  obtain ⟨ok,d',hcall,hiff⟩ := failed_write_keeps_contents sampleVolume (fileDisk slackFat)
    (fileDisk_wellFormed (by decide +kernel) (by decide +kernel)) (by decide) [65]
    (List.replicate 513 120) 0x10000000 (by decide)
  refine ⟨ok,d',hcall,hiff.mpr fun e h => ?_⟩
  have hlocate : locatePathEntry sampleVolume [65] (fileDisk slackFat)=some (⟨3,1,0x20⟩,⟨2,0⟩) := by
    decide +kernel
  rw [h.entry_eq hlocate]
  decide +kernel

/-- With free entries past the end of the device the second cluster is one of them: the first is
written over before the write to the second fails. -/
theorem slack_write_loses_contents :
    WellFormed sampleVolume (fileDisk slackFat) ∧
    readFile sampleVolume [65] 1 (fileDisk slackFat)=some [120] ∧
    (writeFile sampleVolume 0x10000000 [65] (List.replicate 513 121) (fileDisk slackFat)).map
      (fun r => (r.1,readFile sampleVolume [65] 1 r.2))=some (false,some [121]) :=
  ⟨fileDisk_wellFormed (by decide +kernel) (by decide +kernel),by decide +kernel,by decide +kernel⟩

end Failures

end ConeOS.Fat32
