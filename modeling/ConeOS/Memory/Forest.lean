import Mathlib.Data.Finset.Card
import ConeOS.Memory.Entry

namespace ConeOS.Memory

open ConeOS.Library Machine

section Entries

variable (m : Machine) {page q table : Nat}

@[simp] theorem setPage_mem (page q : Nat) (b : Block) :
    (m.setPage page b).mem q=if q=page then b else m.mem q := rfl

theorem setPage_mem_of_ne (b : Block) (h : q≠page) :
    (m.setPage page b).mem q=m.mem q := if_neg h

@[simp] theorem setPage_pmm (page : Nat) (b : Block) : (m.setPage page b).pmm=m.pmm := rfl

@[simp] theorem setEntry_pmm (table i : Nat) (e : BitVec 64) :
    (m.setEntry table i e).pmm=m.pmm := rfl

@[simp] theorem clearPage_pmm (page : Nat) : (m.clearPage page).pmm=m.pmm := rfl

theorem setEntry_mem_of_ne (i : Nat) (e : BitVec 64) (h : q≠table) :
    (m.setEntry table i e).mem q=m.mem q := if_neg h

theorem clearPage_mem_of_ne (h : q≠page) :
    (m.clearPage page).mem q=m.mem q := if_neg h

theorem setEntry_entry (table i q j : Nat) (e : BitVec 64) :
    (m.setEntry table i e).entry q j=if q=table ∧ j=i then e else m.entry q j := by
  simp only [entry,setEntry,setPage_mem]
  by_cases hq : q=table
  · subst hq
    by_cases hj : j=i <;> simp [hj]
  · simp [hq]

@[simp] theorem setEntry_entry_self (table i : Nat) (e : BitVec 64) :
    (m.setEntry table i e).entry table i=e := by
  simp [setEntry_entry]

theorem setEntry_entry_of_ne {i j : Nat} (e : BitVec 64) (h : q≠table ∨ j≠i) :
    (m.setEntry table i e).entry q j=m.entry q j := by
  rw [setEntry_entry,if_neg]
  rintro ⟨rfl,rfl⟩
  simp at h

@[simp] theorem clearPage_entry (page i : Nat) : (m.clearPage page).entry page i=0 := by
  simp [entry,clearPage]

theorem setEntry_entry_eq (table i : Nat) : m.setEntry table i (m.entry table i)=m := by
  have hmem : (m.setEntry table i (m.entry table i)).mem=m.mem := by
    funext q j
    simp only [setEntry,setPage_mem,entry]
    by_cases hq : q=table
    · subst hq
      by_cases hj : j=i <;> simp [hj]
    · simp [hq]
  cases m
  simp only [setEntry,setPage] at hmem ⊢
  rw [hmem]

@[simp] theorem present_zero : present 0=false := by
  decide

end Entries

/-- The place of a table: the root of its space and the indices that lead to it, the last
one first. -/
abbrev Label := Nat × List Nat

/-- How many entries of a table at this place lead to user addresses. -/
def userBound (path : List Nat) : Nat := if path=[] then 256 else 512

def ValidPath : List Nat → Prop
  | [] => True
  | i :: path => i<userBound path ∧ path.length<3 ∧ ValidPath path

/-- The table at the end of a path, by walking. -/
def tableAt (m : Machine) (root : Nat) : List Nat → Option Nat
  | [] => some root
  | i :: path =>
    match tableAt m root path with
    | none => none
    | some q => if present (m.entry q i) && !huge (m.entry q i) then some (addressPage (m.entry q i))
      else none

/-- The way to the last table of a user page. -/
def pathOf (vpn : Nat) : List Nat :=
  [vpn/512%512,vpn/512 ^ 2%512,vpn/512 ^ 3%512]

/-- The user pages of a space. -/
def userPages : Nat := 2 ^ 35

def leafAt (m : Machine) (root vpn : Nat) : Option (BitVec 64) :=
  match tableAt m root (pathOf vpn) with
  | none => none
  | some q => if present (m.entry q (vpn%512)) then some (m.entry q (vpn%512)) else none

/-- The tables below the roots form trees, and `label` tells every table its place. -/
structure Forest (m : Machine) (roots : Finset Nat) (label : Nat → Option Label) : Prop where
  root : ∀ q r, label q=some (r, []) ↔ q=r ∧ r ∈ roots
  owner : ∀ {q r path}, label q=some (r,path) → r ∈ roots
  valid : ∀ {q r path}, label q=some (r,path) → ValidPath path
  parent : ∀ {c r i path}, label c=some (r, i :: path) → ∃ q, label q=some (r,path) ∧
    present (m.entry q i)=true ∧ addressPage (m.entry q i)=c
  child : ∀ {q r path i}, label q=some (r,path) → path.length<3 → i<userBound path →
    present (m.entry q i)=true → TableEntry (m.entry q i) ∧
      label (addressPage (m.entry q i))=some (r, i :: path)
  leaf : ∀ {q r path i}, label q=some (r,path) → path.length=3 → i<512 →
    present (m.entry q i)=true → hasFlag (m.entry q i) vmmUser=true ∧
      managed m.pmm (addressPage (m.entry q i))=true

/-- The spaces have the same tables at the same places. -/
def SameTables (roots : Finset Nat) (m m' : Machine) : Prop :=
  ∀ ⦃r path⦄, r ∈ roots → ValidPath path → tableAt m' r path=tableAt m r path

section Paths

variable {path : List Nat}

theorem pathOf_valid {vpn : Nat} (h : vpn<userPages) : ValidPath (pathOf vpn) := by
  have htop : vpn/512 ^ 3%512<256 := by
    unfold userPages at h
    omega
  refine ⟨?_,by simp,?_,by simp,?_,by simp,trivial⟩
  · exact Nat.mod_lt _ (by decide)
  · exact Nat.mod_lt _ (by decide)
  · exact htop

theorem ValidPath.length_le (h : ValidPath path) : path.length≤3 := by
  cases path with
  | nil => exact Nat.zero_le _
  | cons i path =>
    have := h.2.1
    simp only [List.length_cons]
    omega

/-- The page number whose way is `path` and whose entry is `i`. -/
def vpnOf (path : List Nat) (i : Nat) : Nat :=
  match path with
  | [i2,i1,i0] => ((i0*512+i1)*512+i2)*512+i
  | _ => 0

theorem vpnOf_pathOf (vpn : Nat) (h : vpn<userPages) :
    vpnOf (pathOf vpn) (vpn%512)=vpn := by
  unfold userPages at h
  simp only [vpnOf,pathOf]
  omega

theorem pathOf_vpnOf {i : Nat} (hv : ValidPath path) (hl : path.length=3)
    (hi : i<512) :
    pathOf (vpnOf path i)=path ∧ vpnOf path i%512=i ∧ vpnOf path i<userPages := by
  match path, hl with
  | [i2,i1,i0], _ =>
    obtain ⟨h2,-,h1,-,h0,-,-⟩ := hv
    have h2 : i2<512 := h2
    have h1 : i1<512 := h1
    have h0 : i0<256 := h0
    simp only [pathOf,vpnOf,userPages]
    refine ⟨?_,by omega,by omega⟩
    congr 1
    · omega
    congr 1
    · omega
    · congr 1
      omega

end Paths

namespace Forest

variable {m : Machine} {roots : Finset Nat} {label : Nat → Option Label} {r q q' vpn : Nat}
  {path : List Nat} {m' : Machine}

/-- Walking and the labels say the same. -/
theorem tableAt_iff (f : Forest m roots label) (hr : r ∈ roots)
    (hv : ValidPath path) : tableAt m r path=some q ↔ label q=some (r,path) := by
  induction path generalizing q with
  | nil =>
    rw [f.root,tableAt,Option.some_inj]
    exact ⟨fun h => ⟨h.symm,hr⟩,fun h => h.1.symm⟩
  | cons i path ih =>
    obtain ⟨hi,hlen,hv'⟩ := hv
    constructor
    · intro h
      rw [tableAt] at h
      split at h
      · cases h
      next p hp =>
        have hlabel := (ih hv').mp hp
        split_ifs at h with hflags
        have hpresent : present (m.entry p i)=true := by
          simp only [Bool.and_eq_true] at hflags
          exact hflags.1
        rw [← Option.some.inj h]
        exact (f.child hlabel hlen hi hpresent).2
    · intro h
      obtain ⟨p,hlabel,hpresent,hpage⟩ := f.parent h
      have hhuge := (f.child hlabel hlen hi hpresent).1.notHuge
      rw [tableAt,(ih hv').mpr hlabel]
      simp [hpresent,hhuge,hpage]

theorem label_unique (f : Forest m roots label)
    (h : label q=some (r,path)) (h' : label q'=some (r,path)) : q=q' := by
  have hr := f.owner h
  have hv := f.valid h
  have hq := (f.tableAt_iff hr hv).mpr h
  have hq' := (f.tableAt_iff hr hv).mpr h'
  exact Option.some.inj (hq.symm.trans hq')

theorem leafAt_iff (f : Forest m roots label) (hr : r ∈ roots)
    (hv : vpn<userPages) (e : BitVec 64) :
    leafAt m r vpn=some e ↔ ∃ q, label q=some (r,pathOf vpn) ∧
      m.entry q (vpn%512)=e ∧ present e=true := by
  unfold leafAt
  constructor
  · intro h
    split at h
    · cases h
    next q hq =>
      split_ifs at h with hp
      have he := Option.some.inj h
      exact ⟨q,(f.tableAt_iff hr (pathOf_valid hv)).mp hq,he,he ▸ hp⟩
  · rintro ⟨q,hq,he,hp⟩
    rw [(f.tableAt_iff hr (pathOf_valid hv)).mpr hq]
    dsimp only
    rw [he,if_pos hp]

theorem leafAt_of_label (f : Forest m roots label)
    (hq : label q=some (r,pathOf vpn)) (hv : vpn<userPages) :
    leafAt m r vpn =
      if present (m.entry q (vpn%512)) then some (m.entry q (vpn%512)) else none := by
  have hr := f.owner hq
  unfold leafAt
  rw [(f.tableAt_iff hr (pathOf_valid hv)).mpr hq]

theorem leafAt_of_no_label (f : Forest m roots label) (hr : r ∈ roots)
    (hv : vpn<userPages) (h : ∀ q, label q≠some (r,pathOf vpn)) : leafAt m r vpn=none := by
  cases hl : leafAt m r vpn with
  | none => rfl
  | some e =>
    obtain ⟨q,hq,-⟩ := (f.leafAt_iff hr hv e).mp hl
    exact absurd hq (h q)

theorem congr (f : Forest m roots label)
    (hmem : ∀ q, label q≠none → m'.mem q=m.mem q)
    (hmanaged : ∀ p, managed m'.pmm p=managed m.pmm p) : Forest m' roots label := by
  have hentry {q : Nat} {l : Label} (h : label q=some l) (i : Nat) :
      m'.entry q i=m.entry q i := by
    rw [entry,entry,hmem q (by simp [h])]
  refine ⟨f.root,f.owner,f.valid,?_,?_,?_⟩
  · intro c r i path h
    obtain ⟨q,hq,hp,ha⟩ := f.parent h
    exact ⟨q,hq,by rw [hentry hq]; exact hp,by rw [hentry hq]; exact ha⟩
  · intro q r path i hq hlen hi hp
    rw [hentry hq] at hp ⊢
    exact f.child hq hlen hi hp
  intro q r path i hq hlen hi hp
  rw [hentry hq] at hp ⊢
  rw [hmanaged]
  exact f.leaf hq hlen hi hp

theorem leafAt_congr {roots' : Finset Nat} {label' : Nat → Option Label}
    (f : Forest m roots label) (f' : Forest m' roots' label')
    (hr : r ∈ roots) (hr' : r ∈ roots') (hv : vpn<userPages)
    (hlabel : ∀ q, label' q=some (r,pathOf vpn) ↔ label q=some (r,pathOf vpn))
    (hentry : ∀ q, label q=some (r,pathOf vpn) →
      m'.entry q (vpn%512)=m.entry q (vpn%512)) : leafAt m' r vpn=leafAt m r vpn := by
  apply Option.ext
  intro e
  rw [f'.leafAt_iff hr' hv,f.leafAt_iff hr hv]
  constructor
  · rintro ⟨q,hq,he,hp⟩
    have hq := (hlabel q).mp hq
    exact ⟨q,hq,by rw [← hentry q hq]; exact he,hp⟩
  · rintro ⟨q,hq,he,hp⟩
    exact ⟨q,(hlabel q).mpr hq,by rw [hentry q hq]; exact he,hp⟩

theorem tableAt_congr (f : Forest m roots label)
    (hr : r ∈ roots) (hv : ValidPath path)
    (hmem : ∀ q path, label q=some (r,path) → m'.mem q=m.mem q) :
    tableAt m' r path=tableAt m r path := by
  induction path with
  | nil => rfl
  | cons i path ih =>
    rw [tableAt,tableAt,ih hv.2.2]
    cases hq : tableAt m r path with
    | none => rfl
    | some q =>
      have hentry : m'.entry q i=m.entry q i := by
        rw [entry,entry,hmem q path ((f.tableAt_iff hr hv.2.2).mp hq)]
      dsimp only
      rw [hentry]

omit m roots in
theorem ne_of_length {r' : Nat} {path' : List Nat}
    (h : label q=some (r,path)) (h' : label q'=some (r',path'))
    (hne : path.length≠path'.length) : q≠q' := by
  rintro rfl
  rw [h] at h'
  have : path=path' := by
    cases h'
    rfl
  exact hne (congrArg List.length this)

end Forest

end ConeOS.Memory
