import Mathlib.Data.List.DropRight
import ConeOS.Fat32.Delete
import ConeOS.Vfs.PathNormal

namespace ConeOS.Fat32

open ConeOS.Library List
open ConeOS.Vfs (components dot fsPathMax slash components_ne_nil components_of_no_slash)
open ConeOS.Fs (FsDirent)

section Paths

/-- The parts of a path, as the loop of `resolve_directory` meets them. -/
def pathParts (path : Name) : List Name := (components path).filter (· ≠ [])

def splitParent (path : Name) : Option (Name × Name) :=
  if path=[] ∨ fsPathMax<path.length then none
  else
    let trimmed := path.rdropWhile (· = slash)
    if trimmed=[] then none
    else
      let leaf := trimmed.rtakeWhile (· ≠ slash)
      let start := trimmed.length-leaf.length
      if leaf=[] ∨ fsPathMax≤leaf.length then none
      else if fsPathMax ≤ start-1 then none
      else some (trimmed.take (start-1), leaf)

/-- `resolve_directory` from a directory on. -/
def resolveParts (v : Volume) (d : Disk) : List Name → Nat → Option Nat
  | [], current => some current
  | part :: rest, current =>
    if fsPathMax≤part.length then none
    else if part=[dot] then resolveParts v d rest current
    else if part=[dot,dot] then none
    else
      match findEntry v current part d with
      | none => none
      | some (entry,_) =>
        if entry.attributes &&& 0x10=0 ∨ entry.cluster<2 then none
        else resolveParts v d rest entry.cluster

def resolveDirectory (v : Volume) (path : Name) (d : Disk) : Option Nat :=
  resolveParts v d (pathParts path) v.rootCluster

def fat32Readdir (v : Volume) (path : Name) (index : Nat) (d : Disk) : Option (Option FsDirent) :=
  match resolveDirectory v path d with
  | none => none
  | some directory => readdirIn v directory index d

theorem components_append (a b : Name) :
    components (a ++ slash :: b)=components a ++ components b := by
  induction a with
  | nil => rfl
  | cons c a ih =>
    rw [cons_append,components,components,ih]
    by_cases hc : c=slash
    · rw [if_pos hc,if_pos hc]
      rfl
    rw [if_neg hc,if_neg hc]
    cases h : components a with
    | nil => exact absurd h (components_ne_nil a)
    | cons p ps => rfl

theorem pathParts_append (a b : Name) :
    pathParts (a ++ slash :: b)=pathParts a ++ pathParts b := by
  rw [pathParts,components_append,filter_append]
  rfl

theorem pathParts_slashes {s : Name} (h : ∀ c ∈ s, c=slash) : pathParts s=[] := by
  induction s with
  | nil => rfl
  | cons c s ih =>
    rw [h c mem_cons_self]
    have := pathParts_append [] s
    rw [nil_append] at this
    rw [this,ih (fun x hx => h x (mem_cons_of_mem c hx))]
    rfl

theorem pathParts_part {part : Name} (hne : part≠[]) (h : slash ∉ part) :
    pathParts part=[part] := by
  rw [pathParts,components_of_no_slash h]
  simp [hne]

theorem trimmed_parts (path : Name) :
    pathParts (path.rdropWhile (· = slash))=pathParts path := by
  have hcut := rdropWhile_append_rtakeWhile (p := (· = slash)) (l := path)
  have hslashes : ∀ c ∈ path.rtakeWhile (· = slash), c=slash := by
    intro c hc
    have hp := mem_rtakeWhile_imp hc
    exact of_decide_eq_true hp
  cases hrest : path.rtakeWhile (· = slash) with
  | nil =>
    rw [hrest,append_nil] at hcut
    rw [hcut]
  | cons c rest =>
    rw [hrest] at hcut hslashes
    rw [hslashes c mem_cons_self] at hcut
    rw [← hcut,pathParts_append,pathParts_slashes (fun x hx => hslashes x (mem_cons_of_mem c hx)),
      append_nil,hcut]

theorem rdropWhile_slash (path : Name) :
    path.rdropWhile (· ≠ slash)=[] ∨
      ∃ parent, path.rdropWhile (· ≠ slash)=parent ++ [slash] := by
  by_cases h : path.rdropWhile (· ≠ slash)=[]
  · exact .inl h
  have hlast := rdropWhile_last_not _ _ h
  have hslash : (path.rdropWhile (· ≠ slash)).getLast h=slash := by simpa using hlast
  refine .inr ⟨(path.rdropWhile (· ≠ slash)).dropLast,?_⟩
  conv_lhs => rw [← dropLast_append_getLast h,hslash]

/-- `split_parent` cuts off the last part. -/
theorem splitParent_of_parts {path leaf : Name} {parts : List Name}
    (hparts : pathParts path=parts ++ [leaf]) (hpath : path.length≤fsPathMax)
    (hleaf : leaf.length<fsPathMax) :
    ∃ parent, splitParent path=some (parent,leaf) ∧ pathParts parent=parts := by
  have hlength : (path.rdropWhile (· = slash)).length≤path.length :=
    (List.rdropWhile_prefix _ _).length_le
  rw [← trimmed_parts] at hparts
  have hnonempty : path≠[] := by
    intro h
    rw [h] at hparts
    simp [pathParts,components] at hparts
  rw [splitParent,if_neg (by rw [not_or]; exact ⟨hnonempty,by omega⟩)]
  generalize htrimmed : path.rdropWhile (· = slash)=trimmed at hparts hlength
  have hne : trimmed≠[] := by
    intro h
    rw [h] at hparts
    simp [pathParts,components] at hparts
  have hcut := rdropWhile_append_rtakeWhile (p := (· ≠ slash)) (l := trimmed)
  have hlast : trimmed.rtakeWhile (· ≠ slash)≠[] := by
    intro h
    rw [rtakeWhile_eq_nil_iff] at h
    have hend := h hne
    subst htrimmed
    have hnot := rdropWhile_last_not _ _ hne
    simp only [ne_eq,decide_not,Bool.not_eq_eq_eq_not,Bool.not_true,decide_eq_false_iff_not,
      not_not,decide_eq_true_eq] at hend hnot
    exact hnot hend
  have hslash : slash ∉ trimmed.rtakeWhile (· ≠ slash) := by
    intro h
    have hp := mem_rtakeWhile_imp h
    simp at hp
  dsimp only
  rw [if_neg hne]
  generalize trimmed.rtakeWhile (· ≠ slash)=last at hcut hlast hslash ⊢
  have hhead : trimmed=last ∧ trimmed.length-last.length=0 ∨
      ∃ parent, trimmed=parent ++ slash :: last ∧
        trimmed.length-last.length=parent.length+1 := by
    obtain hd | ⟨parent,hd⟩ := rdropWhile_slash trimmed
    · rw [hd] at hcut
      rw [← hcut]
      exact .inl ⟨rfl,Nat.sub_self _⟩
    rw [hd,append_assoc] at hcut
    rw [← hcut]
    refine .inr ⟨parent,rfl,?_⟩
    simp only [singleton_append,length_append,length_cons]
    omega
  obtain ⟨rfl,hstart⟩ | ⟨parent,rfl,hstart⟩ := hhead
  · rw [pathParts_part hlast hslash] at hparts
    obtain ⟨h1,h2⟩ := append_inj' (show [] ++ _ = parts ++ [leaf] from hparts) rfl
    cases h2
    cases h1
    refine ⟨[],?_,rfl⟩
    rw [hstart,if_neg (by rw [not_or]; exact ⟨hlast,by omega⟩),if_neg (by decide)]
    rfl
  rw [pathParts_append,pathParts_part hlast hslash] at hparts
  obtain ⟨h1,h2⟩ := append_inj' hparts rfl
  cases h2
  refine ⟨parent,?_,h1⟩
  rw [length_append,length_cons] at hlength
  rw [hstart,if_neg (by rw [not_or]; exact ⟨hlast,by omega⟩),if_neg (by omega),
    Nat.add_sub_cancel,take_left]

end Paths

end ConeOS.Fat32
