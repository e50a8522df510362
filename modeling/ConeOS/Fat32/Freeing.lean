import ConeOS.Fat32.Rmdir
import ConeOS.Fat32.Write
import Mathlib.Data.Finset.Card
import Mathlib.Data.Finset.Prod

namespace ConeOS.Fat32

open ConeOS.Library Function

section Words

variable {δ : Type} (D : Device δ)

/-- The words of the device that are not zero, each by its sector and its number there. -/
def nonzeroWords (d : δ) : Finset (Nat × Nat) :=
  (Finset.range (D.sectors d) ×ˢ Finset.range 128).filter
    (fun p => read32 (D.content d p.1) (4*p.2)≠0)

end Words

section Step

variable {δ : Type} {D : Device δ} {v : Volume} {d d' : δ} {s k cluster : Nat}

theorem mem_nonzeroWords :
    (s,k) ∈ nonzeroWords D d ↔
      s<D.sectors d ∧ k<128 ∧ read32 (D.content d s) (4*k)≠0 := by
  simp [nonzeroWords,and_assoc]

/-- The word of a cluster in its sector. -/
def fatWord (cluster : Nat) : Nat := wrap (cluster*4)%512/4

theorem fatWord_lt (cluster : Nat) : fatWord cluster<128 := by
  rw [fatWord]
  omega

theorem fatWord_offset (cluster : Nat) : wrap (cluster*4)%512=4*fatWord cluster := by
  rw [fatWord,wrap]
  omega

theorem nonzeroWords_congr (hs : D.sectors d'=D.sectors d) (hc : D.content d'=D.content d) :
    nonzeroWords D d'=nonzeroWords D d := by
  rw [nonzeroWords,nonzeroWords,hs,hc]

/-- Writing a zero over a word takes it out and puts none in. -/
theorem nonzeroWords_zeroed (hs : D.sectors d'=D.sectors d)
    (hc : D.content d' =
      update (D.content d) s (write32 (4*k) 0 (D.content d s))) :
    nonzeroWords D d' ⊆ nonzeroWords D d ∧ (s,k) ∉ nonzeroWords D d' := by
  have hread : ∀ t j, read32 (D.content d' t) (4*j) =
      if t=s ∧ j=k then 0 else read32 (D.content d t) (4*j) := by
    intro t j
    rw [hc]
    by_cases ht : t=s
    · subst ht
      rw [update_self,read32_write32 _ _ _ _ (by omega) (by omega)]
      by_cases hj : j=k
      · rw [if_pos (by rw [hj]),if_pos ⟨rfl,hj⟩,Nat.zero_mod]
      · rw [if_neg (by omega),if_neg fun h => hj h.2]
    · rw [update_of_ne ht,if_neg fun h => ht h.1]
  refine ⟨?_,?_⟩
  · rintro ⟨t,j⟩ hmem
    rw [mem_nonzeroWords,hread,hs] at hmem
    obtain ⟨ht,hj,hword⟩ := hmem
    split_ifs at hword with hzero
    · exact absurd rfl hword
    · exact mem_nonzeroWords.mpr ⟨ht,hj,hword⟩
  · rw [mem_nonzeroWords,hread,if_pos ⟨rfl,rfl⟩]
    exact fun h => h.2.2 rfl

/-- The copies that were gone through no longer hold the word of the cluster, and nothing new is
written. -/
theorem updateLoop_clears {copies : List Nat}
    (h : loopAll (fun copy d =>
      match D.read (fatSector v copy cluster) d with
      | (none,d) => (false,d)
      | (some sector,d) =>
        D.write (fatSector v copy cluster) (write32 (wrap (cluster*4)%512) 0 sector) d)
      copies d=(true,d')) :
    nonzeroWords D d' ⊆ nonzeroWords D d ∧
      ∀ copy ∈ copies, (fatSector v copy cluster,fatWord cluster) ∉ nonzeroWords D d' := by
  induction copies generalizing d with
  | nil =>
    have hd : d=d' := congrArg Prod.snd h
    rw [hd]
    exact ⟨Finset.Subset.refl _,fun _ hc => nomatch hc⟩
  | cons copy copies ih =>
    rw [loopAll] at h
    obtain ⟨hsectors,hcontent⟩ := D.read_keeps (fatSector v copy cluster) d
    have hread := D.read_some (fatSector v copy cluster) d
    generalize D.read (fatSector v copy cluster) d=r at h hsectors hcontent hread
    obtain ⟨answer,d₁⟩ := r
    cases answer with
    | none => cases h
    | some sector =>
      dsimp only at h hsectors hcontent
      obtain ⟨-,rfl⟩ := hread sector rfl
      have hwrite := D.write_true (fatSector v copy cluster)
        (write32 (wrap (cluster*4)%512) 0 (D.content d (fatSector v copy cluster))) d₁
      generalize D.write (fatSector v copy cluster)
        (write32 (wrap (cluster*4)%512) 0 (D.content d (fatSector v copy cluster))) d₁=w
        at h hwrite
      obtain ⟨ok,d₂⟩ := w
      cases ok with
      | false => cases h
      | true =>
        obtain ⟨hsectors₂,hcontent₂⟩ := hwrite rfl
        rw [fatWord_offset,← hcontent] at hcontent₂
        obtain ⟨hsub,hgone⟩ := nonzeroWords_zeroed hsectors₂ hcontent₂
        obtain ⟨hsub',hgone'⟩ := ih h
        rw [nonzeroWords_congr hsectors hcontent] at hsub
        refine ⟨hsub'.trans hsub,?_⟩
        intro c hc
        rcases List.mem_cons.mp hc with rfl | hc
        · exact fun hmem => hgone (hsub' hmem)
        · exact hgone' c hc

theorem updateFatOn_clears (hcopies : 0<v.fatCount)
    (h : updateFatOn v D cluster 0 d=(true,d')) :
    nonzeroWords D d' ⊆ nonzeroWords D d ∧
      (fatSector v 0 cluster,fatWord cluster) ∉ nonzeroWords D d' := by
  obtain ⟨hsub,hgone⟩ := updateLoop_clears h
  exact ⟨hsub,hgone 0 (List.mem_range.mpr hcopies)⟩

/-- A cluster with a successor has a word that is not zero. -/
theorem nextClusterOn_word {next : Nat} (h : nextClusterOn v D cluster d=(next,d')) :
    nonzeroWords D d'=nonzeroWords D d ∧
      (2≤next ∧ next<endOfChain →
        (fatSector v 0 cluster,fatWord cluster) ∈ nonzeroWords D d) := by
  rw [nextClusterOn] at h
  obtain ⟨hsectors,hcontent⟩ := D.read_keeps (fatSector v 0 cluster) d
  have hread := D.read_some (fatSector v 0 cluster) d
  generalize D.read (fatSector v 0 cluster) d=r at h hsectors hcontent hread
  obtain ⟨answer,d₁⟩ := r
  cases answer with
  | none =>
    obtain ⟨rfl,rfl⟩ := Prod.mk.inj h
    refine ⟨nonzeroWords_congr hsectors hcontent,?_⟩
    intro hnext
    exact absurd hnext.2 (by decide)
  | some sector =>
    obtain ⟨rfl,rfl⟩ := Prod.mk.inj h
    refine ⟨nonzeroWords_congr hsectors hcontent,?_⟩
    intro hnext
    obtain ⟨hin,rfl⟩ := hread sector rfl
    refine mem_nonzeroWords.mpr ⟨hin,fatWord_lt cluster,?_⟩
    rw [← fatWord_offset]
    intro hzero
    rw [hzero] at hnext
    exact absurd hnext.1 (by decide)

/-- One round of the freeing loop: it fails, it is the last one, or a word becomes zero; no
round that succeeds makes a word that is not. -/
inductive FreeRound (D : Device δ) (v : Volume) (cluster : Nat) (d : δ) : Prop
  | fails (next : Nat) (d₁ d₂ : δ) : nextClusterOn v D cluster d=(next,d₁) →
      updateFatOn v D cluster 0 d₁=(false,d₂) → FreeRound D v cluster d
  | last (next : Nat) (d₁ d₂ : δ) : nextClusterOn v D cluster d=(next,d₁) →
      updateFatOn v D cluster 0 d₁=(true,d₂) → ¬ (2≤next ∧ next<endOfChain) →
      nonzeroWords D d₂ ⊆ nonzeroWords D d → FreeRound D v cluster d
  | clears (next : Nat) (d₁ d₂ : δ) : nextClusterOn v D cluster d=(next,d₁) →
      updateFatOn v D cluster 0 d₁=(true,d₂) → nonzeroWords D d₂ ⊂ nonzeroWords D d →
      FreeRound D v cluster d

theorem freeRound (hcopies : 0<v.fatCount) (cluster : Nat) (d : δ) :
    FreeRound D v cluster d := by
  cases hnext : nextClusterOn v D cluster d with
  | mk next d₁ =>
    obtain ⟨hsame,hword⟩ := nextClusterOn_word hnext
    cases hupdate : updateFatOn v D cluster 0 d₁ with
    | mk ok d₂ =>
      cases ok with
      | false => exact .fails next d₁ d₂ hnext hupdate
      | true =>
        obtain ⟨hsub,hgone⟩ := updateFatOn_clears hcopies hupdate
        rw [hsame] at hsub
        by_cases hgoes : 2≤next ∧ next<endOfChain
        · exact .clears next d₁ d₂ hnext hupdate ⟨hsub,fun hback => hgone (hback (hword hgoes))⟩
        · exact .last next d₁ d₂ hnext hupdate hgoes hsub

end Step

section Termination

variable {δ : Type} {D : Device δ} {v : Volume}

/-- One round more than there are words to clear, and one to see the end. -/
theorem freeChainOn_returns (hcopies : 0<v.fatCount) {rounds cluster : Nat} {d : δ}
    (h : (nonzeroWords D d).card+1<rounds) : (freeChainOn v D rounds cluster d).isSome := by
  induction rounds generalizing cluster d with
  | zero => omega
  | succ rounds ih =>
    rw [freeChainOn]
    split_ifs
    · cases freeRound (D := D) hcopies cluster d with
      | fails next d₁ d₂ hnext hupdate =>
        rw [hnext]
        dsimp only
        rw [hupdate]
        rfl
      | last next d₁ d₂ hnext hupdate hends hsub =>
        rw [hnext]
        dsimp only
        rw [hupdate]
        dsimp only
        obtain ⟨n,rfl⟩ : ∃ n, rounds=n+1 := ⟨rounds-1,by omega⟩
        rw [freeChainOn,if_neg hends]
        rfl
      | clears next d₁ d₂ hnext hupdate hsub =>
        rw [hnext]
        dsimp only
        rw [hupdate]
        have hless := Finset.card_lt_card hsub
        exact ih (by omega)
    · rfl

end Termination

section Calls

/-- `fat32_unlink_file`, with a number of rounds for the loop that frees the chain. -/
def unlinkFile (v : Volume) (rounds : Nat) (path : Name) (d : Disk) : Option (Bool × Disk) :=
  match splitParent path with
  | none => some (false,d)
  | some (parent,leaf) =>
    match resolveDirectory v parent d with
    | none => some (false,d)
    | some parentCluster =>
      match findEntry v parentCluster leaf d with
      | none => some (false,d)
      | some (entry,target) =>
        if entry.isDirectory then some (false,d)
        else
          match markEntryDeleted v parentCluster target d with
          | (false,d) => some (false,d)
          | (true,d) => freeChain v rounds entry.cluster d

variable {v : Volume}

/-- Enough rounds for a call: whatever comes before the loop does not depend on them. -/
def Returns {α : Type} (call : Nat → Option α) : Prop :=
  ∃ enough, ∀ rounds, enough≤rounds → (call rounds).isSome

theorem Returns.done {α : Type} (a : α) : Returns fun _ => some a := ⟨0,fun _ _ => rfl⟩

theorem freeChain_returns (hcopies : 0<v.fatCount) (cluster : Nat) (d : Disk) :
    Returns fun rounds => freeChain v rounds cluster d := by
  refine ⟨(nonzeroWords diskDevice d).card+2,fun rounds hrounds => ?_⟩
  exact freeChainOn_returns hcopies (by omega)

theorem deleteAndFree_returns (hcopies : 0<v.fatCount) (parent : Nat) (target : Position)
    (cluster : Nat) (d : Disk) :
    Returns fun rounds =>
      match markEntryDeleted v parent target d with
      | (false,d) => some (false,d)
      | (true,d) => freeChain v rounds cluster d := by
  cases markEntryDeleted v parent target d with
  | mk ok d' =>
    cases ok with
    | false => exact .done _
    | true => exact freeChain_returns hcopies cluster d'

theorem unlinkFile_returns (hcopies : 0<v.fatCount) (path : Name) (d : Disk) :
    Returns fun rounds => unlinkFile v rounds path d := by
  simp only [unlinkFile]
  cases splitParent path with
  | none => exact .done _
  | some names =>
    dsimp only
    cases resolveDirectory v names.1 d with
    | none => exact .done _
    | some parentCluster =>
      dsimp only
      cases findEntry v parentCluster names.2 d with
      | none => exact .done _
      | some found =>
        dsimp only
        split_ifs
        · exact .done _
        · exact deleteAndFree_returns hcopies parentCluster found.2 found.1.cluster d

theorem removeDirectory_returns (hcopies : 0<v.fatCount) (path : Name) (d : Disk) :
    Returns fun rounds => removeDirectory v rounds path d := by
  simp only [removeDirectory]
  cases splitParent path with
  | none => exact .done _
  | some names =>
    dsimp only
    cases resolveDirectory v names.1 d with
    | none => exact .done _
    | some parentCluster =>
      dsimp only
      cases findEntry v parentCluster names.2 d with
      | none => exact .done _
      | some found =>
        dsimp only
        split_ifs
        · exact .done _
        · exact deleteAndFree_returns hcopies parentCluster found.2 found.1.cluster d
        · exact .done _

theorem cutChain_returns (hcopies : 0<v.fatCount) (last : Nat) (d : Disk) :
    Returns fun rounds => cutChain v rounds last d := by
  simp only [cutChain]
  cases updateFat v last 0x0FFFFFFF d with
  | mk ok d' =>
    cases ok with
    | false => exact .done _
    | true => exact freeChain_returns hcopies _ d'

theorem writeFile_returns (hcopies : 0<v.fatCount) (path : Name) (buffer : List UInt8)
    (d : Disk) : Returns fun rounds => writeFile v rounds path buffer d := by
  simp only [writeFile]
  split_ifs
  · exact .done _
  cases locatePathEntry v path d with
  | none => exact .done _
  | some found =>
    dsimp only
    split_ifs
    · exact .done _
    · exact .done _
    cases growChain v (requiredClusters v buffer.length -
        (visitedClusters v d 32 found.1.cluster).length)
        (visitedClusters v d 32 found.1.cluster) d with
    | mk ok rest =>
      cases ok with
      | false => exact .done _
      | true =>
        dsimp only
        split_ifs
        · obtain ⟨enough,hcut⟩ := cutChain_returns hcopies
            (rest.1.getD (requiredClusters v buffer.length-1) 0) rest.2
          refine ⟨enough,fun rounds hrounds => ?_⟩
          obtain ⟨answer,hanswer⟩ := Option.isSome_iff_exists.mp (hcut rounds hrounds)
          dsimp only at hanswer ⊢
          rw [hanswer]
          obtain ⟨ok,d'⟩ := answer
          cases ok <;> rfl
        · exact .done _

/-- The loops that free clusters end on every image and on every device on which what is
written stays, and with them the calls that contain one. -/
theorem freeing_loops_terminate (v : Volume) (image : Disk) (hmount : fat32Mount image=some v) :
    (∀ (δ : Type) (D : Device δ) (cluster : Nat) (d : δ), FreeRound D v cluster d ∧
      ∀ rounds, (nonzeroWords D d).card+1<rounds →
        (freeChainOn v D rounds cluster d).isSome) ∧
    (∀ path d, Returns fun rounds => unlinkFile v rounds path d) ∧
    (∀ path d, Returns fun rounds => removeDirectory v rounds path d) ∧
    ∀ path buffer d, Returns fun rounds => writeFile v rounds path buffer d := by
  have hcopies := (fat32Mount_fields hmount).2.1
  refine ⟨?_,unlinkFile_returns hcopies,removeDirectory_returns hcopies,writeFile_returns hcopies⟩
  intro δ D cluster d
  exact ⟨freeRound hcopies cluster d,fun rounds hrounds => freeChainOn_returns hcopies hrounds⟩

/-- The clusters 2 and 3 follow each other in a circle. -/
def circularDisk : Disk := sampleDisk fun i => if i=8 then 3 else if i=12 then 2 else 0

theorem circular_chain_freed :
    (freeChainOn sampleVolume diskDevice ((nonzeroWords diskDevice circularDisk).card+2) 2
      circularDisk).isSome :=
  ((freeing_loops_terminate sampleVolume circularDisk (by decide +kernel)).1 Disk diskDevice 2
    circularDisk).2 _ (by omega)

end Calls

end ConeOS.Fat32
