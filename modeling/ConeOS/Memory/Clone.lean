import ConeOS.Memory.Create

namespace ConeOS.Memory

open ConeOS.Library Machine Function List

/-- The pages the spaces map hold what they held. -/
def SameContents (roots : Finset Nat) (m m' : Machine) : Prop :=
  ∀ ⦃s vpn e⦄, s ∈ roots → vpn<userPages → leafAt m s vpn=some e →
    m'.mem (addressPage e)=m.mem (addressPage e)

section Contents

variable {g : Ghost} {m m' n : Machine} {roots : Finset Nat} {r : Nat} {label' : Nat → Option Label}

theorem Twin.leaf_page (t : Twin g m n) {vpn : Nat} {e : BitVec 64} (hr : r ∈ g.roots)
    (hv : vpn<userPages) (h : leafAt m r vpn=some e) :
    managed m.pmm (addressPage e)=true ∧ m.pmm.bitmap (addressPage e)=true ∧
      g.label (addressPage e)=none ∧ m.kernelPages (addressPage e)=false := by
  obtain ⟨hm,hb,hl,-⟩ := t.inv.bitmap_of_leaf hr hv h
  refine ⟨hm,hb,hl,?_⟩
  by_contra hk
  have h0 := (t.inv.kernelHeld (by simpa using hk)).2
  have h1 := mappings_pos hr hv h
  omega

theorem Keeps.contents (t : Twin g m n)
    (h : Keeps r g.label label' m m') : SameContents g.roots m m' := by
  intro s vpn e hs hv he
  obtain ⟨-,hb,hl,-⟩ := t.leaf_page hs hv he
  exact (h.page hb (by simp [hl])).1

theorem KernelKeeps.contents (t : Twin g m n) (h : KernelKeeps m m') :
    SameContents g.roots m m' := by
  intro s vpn e hs hv he
  obtain ⟨hm,hb,-,hk⟩ := t.leaf_page hs hv he
  exact (h.page hm hb hk).1

theorem Frees.contents (t : Twin g m n)
    (h : Frees r g.label label' m m') : SameContents g.roots m m' := by
  intro s vpn e hs hv he
  obtain ⟨-,-,hl,-⟩ := t.leaf_page hs hv he
  exact (h.page (by simp [hl])).2

theorem Keeps.tableAt_eq (t : Twin g m n) {s : Nat}
    {path : List Nat} (h : Keeps r g.label label' m m') (hs : s ∈ g.roots) (hsr : s≠r)
    (hp : ValidPath path) : tableAt m' s path=tableAt m s path := by
  apply t.inv.forest.tableAt_congr hs hp
  intro q path' hq
  refine (h.page (t.inv.bitmap_of_label (by simp [hq])) ?_).1
  intro path'' hq'
  rw [hq] at hq'
  cases hq'
  exact hsr rfl

theorem KernelKeeps.sameTables (t : Twin g m n) (h : KernelKeeps m m') :
    SameTables g.roots m m' := by
  intro s path hs hp
  apply t.inv.forest.tableAt_congr hs hp
  intro q path' hq
  have hl : g.label q≠none := by simp [hq]
  obtain ⟨hm,-,hheld⟩ := t.inv.table hl
  refine (h.page hm (t.inv.bitmap_of_label hl) ?_).1
  by_contra hk
  have := (t.inv.kernelHeld (by simpa using hk)).1
  omega

theorem SameContents.trans {m'' : Machine} {roots' : Finset Nat} (h : SameContents roots m m')
    (h' : SameContents roots' m' m'') (hsub : roots ⊆ roots')
    (hpage : ∀ {s vpn e}, s ∈ roots → vpn<userPages → leafAt m s vpn=some e →
      leafPage m' s vpn=some (addressPage e)) : SameContents roots m m'' := by
  intro s vpn e hs hv he
  obtain ⟨e',he',hpe⟩ := Option.map_eq_some_iff.mp (hpage hs hv he)
  rw [← h hs hv he,← hpe,h' (hsub hs) hv he',hpe]

theorem kernelHeld_congr (h : m'.kernelPages=m.kernelPages) : kernelHeld m'=kernelHeld m := by
  unfold kernelHeld
  rw [h]

end Contents

/-- The leaf of the child for a leaf of its parent. -/
def sharedEntry (e : BitVec 64) : BitVec 64 := leafEntry (addressPage e) (cowFlags e)

/-- What `protect_user_mappings_cow` makes of a leaf. -/
def protectedEntry (e : BitVec 64) : BitVec 64 :=
  if (e &&& (vmmPresent ||| vmmUser ||| vmmWritable)) ≠
      (vmmPresent ||| vmmUser ||| vmmWritable) then e
  else (e &&& ~~~vmmWritable) ||| vmmCopyOnWrite

section Entries

variable {e : BitVec 64}

theorem sharedEntry_flags (hu : hasFlag e vmmUser=true) :
    LeafFlags (sharedEntry e) true false (hasFlag e vmmWritable || hasFlag e vmmCopyOnWrite)
      (hasFlag e vmmNoExecute) ∧ addressPage (sharedEntry e)=addressPage e := by
  obtain ⟨hcu,hcw,hcc,hcx⟩ := cowFlags_flags e
  have h := newLeaf_entry (cowFlags e) (addressPage_lt e)
  rw [hcu,hcw,hcc,hcx,hu] at h
  exact h

theorem protectedEntry_flags (hp : present e=true)
    (hu : hasFlag e vmmUser=true) :
    LeafFlags (protectedEntry e) true false
      (hasFlag e vmmWritable || hasFlag e vmmCopyOnWrite) (hasFlag e vmmNoExecute) ∧
      addressPage (protectedEntry e)=addressPage e := by
  have hbits (k : Nat) : (e &&& (vmmPresent ||| vmmUser ||| vmmWritable)).getLsbD k =
      (e.getLsbD k && (decide (k=0) || decide (k=2) || decide (k=1))) := by
    simp only [BitVec.getLsbD_and,BitVec.getLsbD_or,vmmPresent_bit,vmmUser_bit,vmmWritable_bit]
  have hall (k : Nat) : (vmmPresent ||| vmmUser ||| vmmWritable).getLsbD k =
      (decide (k=0) || decide (k=2) || decide (k=1)) := by
    simp only [BitVec.getLsbD_or,vmmPresent_bit,vmmUser_bit,vmmWritable_bit]
  unfold protectedEntry
  cases hw : hasFlag e vmmWritable with
  | false =>
    rw [if_pos]
    · exact ⟨⟨hp,hu,hw,by simp,rfl⟩,rfl⟩
    intro h
    have h1 := congrArg (fun w : BitVec 64 => w.getLsbD 1) h
    rw [writable_bit] at hw
    simp only [hbits,hall,hw] at h1
    simp at h1
  | true =>
    rw [if_neg]
    · obtain ⟨hmade,hpage⟩ := madeShared e
      have := hmade hp
      rw [hu] at this
      exact ⟨by simpa using this,hpage⟩
    rw [not_not]
    rw [present_bit] at hp
    rw [user_bit] at hu
    rw [writable_bit] at hw
    apply BitVec.eq_of_getLsbD_eq
    intro k _
    rw [hbits,hall]
    by_cases h0 : k=0
    · subst h0
      simp only [hp,Bool.true_and]
    by_cases h1 : k=1
    · subst h1
      simp only [hw,Bool.true_and]
    by_cases h2 : k=2
    · subst h2
      simp only [hu,Bool.true_and]
    · simp [h0,h1,h2]

end Entries

section Blocks

variable {m : Machine} {roots : Finset Nat} {label : Nat → Option Label} {r : Nat}
  {i vpn level : Nat} {path : List Nat}

theorem leafAt_absent (f : Forest m roots label) {q : Nat}
    (hq : label q=some (r,path)) (hl : path.length<3) (hi : i<userBound path)
    (habsent : present (m.entry q i)=false) (hvpn : vpn ∈ block (i :: path)) :
    leafAt m r vpn=none := by
  have hr := f.owner hq
  have hv : ValidPath (i :: path) := ⟨hi,hl,f.valid hq⟩
  have htable : tableAt m r (i :: path)=none := by
    cases h : tableAt m r (i :: path) with
    | none => rfl
    | some c => exact absurd ((f.tableAt_iff hr hv).mp h) (f.no_table_below hq habsent)
  obtain ⟨front,hfront⟩ := suffix_pathOf hv hvpn (by simp only [length_cons]; omega)
  rw [leafAt,← hfront,tableAt_append htable]

/-- Where the block of an entry starts and ends. -/
theorem mem_block_cons (hl : level+1+path.length=4)
    (hlevel : level≠0) : vpn ∈ block (i :: path) ↔
      pathNumber path*512 ^ (level+1)+i*512 ^ level≤vpn ∧
        vpn<pathNumber path*512 ^ (level+1)+(i+1)*512 ^ level := by
  have hlen : 4-(i :: path).length=level := by
    simp only [length_cons]
    omega
  have hlen' : 3-(i :: path).length=level-1 := by
    simp only [length_cons]
    omega
  have hpow : 512 ^ level=512*512 ^ (level-1) := by
    rw [← Nat.pow_succ']
    congr 1
    omega
  have hbound : userBound (i :: path)=512 := rfl
  have hstart : (pathNumber path*512+i)*512 ^ level =
      pathNumber path*512 ^ (level+1)+i*512 ^ level := by
    rw [Nat.add_mul,Nat.mul_assoc,← Nat.pow_succ']
  rw [block,Finset.mem_Ico,hlen,hlen',hbound,pathNumber,hstart,← hpow,Nat.add_mul i,
    Nat.one_mul,Nat.add_assoc]

theorem pathNumber_cons_start :
    pathNumber (i :: path)*512 ^ (level+1) =
      pathNumber path*512 ^ (level+1+1)+i*512 ^ (level+1) := by
  rw [pathNumber,Nat.add_mul,Nat.mul_assoc,← Nat.pow_succ']

theorem pathNumber_cons_end :
    pathNumber (i :: path)*512 ^ (level+1)+userBound (i :: path)*512 ^ level =
      pathNumber path*512 ^ (level+1+1)+(i+1)*512 ^ (level+1) := by
  have hbound : userBound (i :: path)=512 := rfl
  rw [pathNumber_cons_start,Nat.add_mul i,Nat.one_mul,Nat.add_assoc,hbound,← Nat.pow_succ']

end Blocks

/-- The clone up to the user page `k`, from the machine `m₀` on. -/
structure Cloning (g : Ghost) (r c : Nat) (m₀ : Machine) (k : Nat)
    (label : Nat → Option Label) (m n : Machine) : Prop where
  twin : Twin { g with label := label } m n
  keeps : Keeps c g.label label m₀ m
  others : ∀ {s vpn}, s ∈ g.roots → s≠c → vpn<userPages → leafAt m s vpn=leafAt m₀ s vpn
  child : ∀ {vpn}, vpn<userPages → leafAt m c vpn =
    if vpn<k then (leafAt m₀ r vpn).map sharedEntry else none

namespace Cloning

variable {g : Ghost} {r c : Nat} {m₀ m n : Machine} {k : Nat} {label : Nat → Option Label}
  {child : VmmSpace} {path : List Nat}

theorem skip (h : Cloning g r c m₀ k label m n) {k' : Nat} (hk : k≤k')
    (hnone : ∀ vpn, k≤vpn → vpn<k' → vpn<userPages → leafAt m₀ r vpn=none) :
    Cloning g r c m₀ k' label m n := by
  refine ⟨h.twin,h.keeps,h.others,?_⟩
  intro vpn hv
  rw [h.child hv]
  by_cases h1 : vpn<k
  · rw [if_pos h1,if_pos (by omega)]
  rw [if_neg h1]
  by_cases h2 : vpn<k'
  · rw [if_pos h2,hnone vpn (by omega) h2 hv]
    rfl
  · rw [if_neg h2]

theorem parent_table (inv₀ : MemInv m₀ g.roots g.label g.held)
    (h : Cloning g r c m₀ k label m n) (hrc : r≠c) {q : Nat}
    (hq : g.label q=some (r,path)) :
    label q=some (r,path) ∧ ∀ i, m.entry q i=m₀.entry q i := by
  have hne (path' : List Nat) : g.label q≠some (c,path') := by
    intro h'
    rw [hq] at h'
    cases h'
    exact hrc rfl
  obtain ⟨hmem,hlabel,-⟩ := h.keeps.page (inv₀.bitmap_of_label (p := q) (by simp [hq])) hne
  refine ⟨by rw [hlabel,hq],?_⟩
  intro i
  rw [entry,entry,hmem]

/-- One leaf of the parent. -/
theorem leafStep (h : Cloning g r c m₀ k label m n) (hr : r ∈ g.roots) (hc : c ∈ g.roots)
    (hrc : r≠c) (hspace : child.pml4Physical/4096=c) (hk : k<userPages) {e : BitVec 64}
    (hleaf : leafAt m₀ r k=some e) :
    let body (m : Machine) := match m.retainPage (addressPage e) with
      | (false,m) => (false,m)
      | (true,m) =>
        match mapPageLocked child (k*4096) (addressPage e*4096) (cowFlags e) m with
        | (true,m) => (true,m)
        | (false,m) => (false, m.freePage (addressPage e))
    Lockstep body (fun m n => ∃ label, Cloning g r c m₀ (k+1) label m n)
      (fun m n => ∃ label, Cloning g r c m₀ k label m n) m n := by
  intro body
  have t := h.twin
  have hleafm : leafAt m r k=some e := by rw [h.others hr hrc hk,hleaf]
  obtain ⟨hm,hb,hlabel,hu⟩ := t.inv.bitmap_of_leaf hr hk hleafm
  have hmapped := mappings_pos hr hk hleafm
  have hkernel : m.kernelPages (addressPage e)=false := by
    by_contra hkp
    have h0 : mappings m g.roots (addressPage e)=0 :=
      (t.inv.kernelHeld (by simpa using hkp)).2
    omega
  rcases t.retainPage hm hlabel with ⟨hm1,hn1⟩ | ⟨hm1,hn1,t1⟩
  · right
    exact ⟨m,n,by simp only [body,hm1],by simp only [body,hn1],label,h⟩
  obtain ⟨hcu,-⟩ := cowFlags_flags e
  have hleaves1 (s vpn : Nat) : leafAt { m with pmm := addReference (addressPage e) m.pmm } s vpn =
      leafAt m s vpn := leafAt_mem rfl s vpn
  have hkeeps1 : Keeps c label label m { m with pmm := addReference (addressPage e) m.pmm } :=
    ⟨fun hb _ => ⟨rfl,rfl,hb⟩,rfl,rfl,fun _ => rfl,rfl⟩
  obtain ⟨ok,m2,n2,label2,hm2,hn2,hkeeps2,hfail,hok⟩ := t1.mapPageLocked
    child (k*4096) (by rw [hspace]; exact hc) (by rw [hcu]; exact hu) (by simp) hkernel
  rw [hspace] at hkeeps2 hok
  have hkdiv : k*4096/4096=k := Nat.mul_div_cancel _ (by omega)
  cases ok with
  | true =>
    left
    obtain ⟨-,-,-,t2,hleaf2⟩ := hok rfl
    simp only [update_self,Nat.add_sub_cancel,update_back _ rfl] at t2
    refine ⟨m2,n2,by simp only [body,hm1,hm2],by simp only [body,hn1,hn2],label2,t2,
      (h.keeps.trans hkeeps1).trans hkeeps2,?_,?_⟩
    · intro s vpn hs hsc hv
      rw [hleaf2 hs hv,if_neg (fun hx => hsc hx.1),hleaves1,h.others hs hsc hv]
    intro vpn hv
    rw [hleaf2 hc hv,hkdiv]
    by_cases hvk : vpn=k
    · rw [if_pos ⟨rfl,hvk⟩,if_pos (by omega),hvk,hleaf]
      rfl
    rw [if_neg (fun hx => hvk hx.2),hleaves1,h.child hv]
    by_cases hlt : vpn<k
    · rw [if_pos hlt,if_pos (by omega)]
    · rw [if_neg hlt,if_neg (by omega)]
  | false =>
    right
    obtain ⟨t2,hleaves2⟩ := hfail rfl
    have t3 := t2.freePage (p := addressPage e) (by simp)
      (fun hx => by
        rw [hkeeps2.kernelPages] at hx
        have hx : m.kernelPages (addressPage e)=true := hx
        rw [hkernel] at hx
        cases hx)
    simp only [update_self,Nat.add_sub_cancel,update_back _ rfl] at t3
    have hb2 := (hkeeps2.page (q := addressPage e) hb (by intro path; rw [hlabel]; simp)).2
    have hmap2 : 0 < mappings m2 g.roots (addressPage e) := by
      rw [mappings_congr (fun s hs vpn hv => hleaves2 hs hv),
        mappings_congr (fun s hs vpn hv => hleaves1 s vpn)]
      exact hmapped
    have hm2' : managed m2.pmm (addressPage e)=true := by
      rw [hkeeps2.map.managed]
      exact hm
    have hcount2 := (t2.inv.counted hm2').1
    simp only [total,update_self] at hcount2
    have hkeeps3 := Twin.freePage_keeps c label2 hm2' hb2.2 (by omega)
    refine ⟨_,_,by simp only [body,hm1,hm2],by simp only [body,hn1,hn2],label2,t3,
      ((h.keeps.trans hkeeps1).trans hkeeps2).trans hkeeps3,?_,?_⟩
    · intro s vpn hs hsc hv
      rw [leafAt_freePage,hleaves2 hs hv,hleaves1,h.others hs hsc hv]
    · intro vpn hv
      rw [leafAt_freePage,hleaves2 hc hv,hleaves1,h.child hv]

/-- One round of `clone_user_mappings_cow`. -/
def cloneEntry (child : VmmSpace) (level table base i : Nat) (m : Machine) : Bool × Machine :=
  let e := m.entry table i
  if !present e then (true,m)
  else
    let address := pageTableVirtualAddress base i (level+1)
    if level≠0 then
      if huge e then (!hasFlag e vmmUser,m)
      else Memory.cloneUserMappingsCow child level (addressPage e) address m
    else if !hasFlag e vmmUser then (true,m)
    else
      match m.retainPage (addressPage e) with
      | (false,m) => (false,m)
      | (true,m) =>
        match mapPageLocked child address (addressPage e*4096) (cowFlags e) m with
        | (true,m) => (true,m)
        | (false,m) => (false, m.freePage (addressPage e))

theorem cloneUserMappingsCow_succ (child : VmmSpace) (level table base : Nat) (m : Machine) :
    Memory.cloneUserMappingsCow child (level+1) table base m =
      loopAll (cloneEntry child level table base) (List.range (userEntries (level+1))) m := by
  rw [Memory.cloneUserMappingsCow]
  rfl

/-- The tables of the parent, level by level. -/
theorem cloneUserMappingsCow (child : VmmSpace) (inv₀ : MemInv m₀ g.roots g.label g.held)
    (hr : r ∈ g.roots) (hc : c ∈ g.roots)
    (hrc : r≠c) (hspace : child.pml4Physical/4096=c) {level q : Nat}
    (hq : g.label q=some (r,path)) (hl : level+1+path.length=4)
    (h : Cloning g r c m₀ (pathNumber path*512 ^ (level+1)) label m n) :
    Lockstep (cloneUserMappingsCow child (level+1) q
        (pathNumber path*512 ^ (level+1)*4096))
      (fun m n => ∃ label, Cloning g r c m₀
        (pathNumber path*512 ^ (level+1)+userBound path*512 ^ level) label m n)
      (fun m n => ∃ k label, Cloning g r c m₀ k label m n) m n := by
  induction level generalizing q path label m n with
  | zero =>
    have hl3 : path.length=3 := by omega
    have hbound : userBound path=512 := by
      apply if_neg
      rintro rfl
      cases hl3
    rw [hbound]
    simp only [Nat.zero_add,Nat.pow_one,Nat.pow_zero,Nat.mul_one] at h ⊢
    refine Lockstep.congr (loopAll_range (n := 512) (P := fun i m n =>
      ∃ label, Cloning g r c m₀ (pathNumber path*512+i) label m n)
      ⟨label,by simpa using h⟩ ?_) (cloneUserMappingsCow_succ ..) (cloneUserMappingsCow_succ ..)
    rintro i s t hi ⟨label,h⟩
    obtain ⟨hql,-⟩ := h.parent_table inv₀ hrc hq
    have hv := h.twin.inv.forest.valid hql
    obtain ⟨hpath,hmod,hvpn⟩ := pathOf_vpnOf hv hl3 hi
    rw [vpnOf_eq hl3] at hpath hmod hvpn
    have hentry : t.entry q i=s.entry q i := h.twin.entry_label (by simp [hql]) i
    have hleaf : leafAt m₀ r (pathNumber path*512+i) =
        if present (s.entry q i) then some (s.entry q i) else none := by
      rw [← h.others hr hrc hvpn,
        h.twin.inv.forest.leafAt_of_label (by rw [hpath]; exact hql) hvpn,hmod]
    cases hp : present (s.entry q i) with
    | false =>
      rw [hp] at hleaf
      refine Or.inl ⟨s,t,by simp [cloneEntry,hp],by simp [cloneEntry,hentry,hp],label,
        h.skip (by omega) ?_⟩
      intro vpn h1 h2 _
      have : vpn=pathNumber path*512+i := by omega
      rw [this,hleaf]
      rfl
    | true =>
      rw [hp,if_pos rfl] at hleaf
      have hu := (h.twin.inv.forest.leaf hql hl3 hi hp).1
      have haddress : pageTableVirtualAddress (pathNumber path*512*4096) i (0+1) =
          (pathNumber path*512+i)*4096 := by
        rw [pageTableVirtualAddress,Nat.add_mul]
        rfl
      have hstep := h.leafStep hr hc hrc hspace hvpn hleaf
      rw [Nat.add_assoc] at hstep
      refine (hstep.congr ?_ ?_).mono (fun _ _ h => h) (fun _ _ h => ⟨_,h⟩)
      · simp only [cloneEntry,hp,hu,haddress,Bool.not_true,Bool.false_eq_true,if_false,
          ne_eq,not_true_eq_false]
      · simp only [cloneEntry,hentry,hp,hu,haddress,Bool.not_true,Bool.false_eq_true,
          if_false,ne_eq,not_true_eq_false]
  | succ level ih =>
    have hbound : userEntries (level+1+1)=userBound path := by
      unfold userEntries userBound
      cases path with
      | nil => rw [if_pos (by simpa using hl),if_pos rfl]
      | cons a rest =>
        simp only [length_cons] at hl
        rw [if_neg (by omega),if_neg (by simp)]
    refine Lockstep.congr (loopAll_range (n := userBound path) (P := fun i m n => ∃ label,
      Cloning g r c m₀ (pathNumber path*512 ^ (level+1+1)+i*512 ^ (level+1)) label m n)
      ⟨label,by simpa using h⟩ ?_) (by rw [cloneUserMappingsCow_succ,hbound])
      (by rw [cloneUserMappingsCow_succ,hbound])
    rintro i s t hi ⟨label,h⟩
    obtain ⟨hql,hentry₀⟩ := h.parent_table inv₀ hrc hq
    have hpl : path.length<3 := by omega
    have hentry : t.entry q i=s.entry q i := h.twin.entry_label (by simp [hql]) i
    cases hp : present (s.entry q i) with
    | false =>
      refine Or.inl ⟨s,t,by simp [cloneEntry,hp],by simp [cloneEntry,hentry,hp],label,h.skip ?_ ?_⟩
      · rw [Nat.add_mul i]
        omega
      intro vpn h1 h2 hv
      rw [← h.others hr hrc hv]
      exact leafAt_absent h.twin.inv.forest hql hpl hi hp
        ((mem_block_cons hl (by omega)).mpr ⟨h1,h2⟩)
    | true =>
      obtain ⟨hte,hchild⟩ := inv₀.forest.child hq hpl hi (by rw [← hentry₀]; exact hp)
      rw [← hentry₀] at hte hchild
      have haddress : pageTableVirtualAddress (pathNumber path*512 ^ (level+1+1)*4096) i
          (level+1+1)=pathNumber (i :: path)*512 ^ (level+1)*4096 := by
        rw [pageTableVirtualAddress,pathNumber_cons_start,Nat.add_mul]
        congr 1
        rw [Nat.mul_assoc]
        congr 1
        rw [Nat.add_sub_cancel,Nat.pow_add,Nat.pow_mul,Nat.mul_comm]
      rw [← pathNumber_cons_start] at h
      have hstep := ih hchild (by simp only [length_cons]; omega) h
      rw [pathNumber_cons_end] at hstep
      refine hstep.congr ?_ ?_
      · simp only [cloneEntry,hp,hte.notHuge,haddress,Bool.not_true,Bool.false_eq_true,
          if_false,ne_eq,Nat.add_one_ne_zero,not_false_eq_true,if_true]
      · simp only [cloneEntry,hentry,hp,hte.notHuge,haddress,Bool.not_true,
          Bool.false_eq_true,if_false,ne_eq,Nat.add_one_ne_zero,not_false_eq_true,if_true]

end Cloning

/-- The protection of the parent up to the user page `k`, from the machine `m₀` on. -/
structure Protecting (g : Ghost) (r : Nat) (m₀ : Machine) (k : Nat) (m n : Machine) : Prop where
  twin : Twin g m n
  keeps : Keeps r g.label g.label m₀ m
  others : ∀ {s vpn}, s ∈ g.roots → s≠r → vpn<userPages → leafAt m s vpn=leafAt m₀ s vpn
  own : ∀ {vpn}, vpn<userPages → leafAt m r vpn =
    if vpn<k then (leafAt m₀ r vpn).map protectedEntry else leafAt m₀ r vpn

namespace Protecting

variable {g : Ghost} {r : Nat} {m₀ m n : Machine} {k : Nat} {q i : Nat} {path : List Nat}

theorem skip (h : Protecting g r m₀ k m n) {k' : Nat} (hk : k≤k')
    (hnone : ∀ vpn, k≤vpn → vpn<k' → vpn<userPages → leafAt m r vpn=none) :
    Protecting g r m₀ k' m n := by
  refine ⟨h.twin,h.keeps,h.others,?_⟩
  intro vpn hv
  have hown := h.own hv
  by_cases h1 : vpn<k
  · rw [hown,if_pos h1,if_pos (by omega)]
  rw [if_neg h1] at hown
  by_cases h2 : vpn<k'
  · have hleaf := hnone vpn (by omega) h2 hv
    rw [if_pos h2,← hown,hleaf]
    rfl
  · rw [if_neg h2,hown]

/-- One round of `protect_user_mappings_cow`. -/
def protectEntry (level table : Nat) (m : Machine) (i : Nat) : Machine :=
  let e := m.entry table i
  if !present e then m
  else if level≠0 then
    if huge e then m else protectUserMappingsCow level (addressPage e) m
  else if (e &&& (vmmPresent ||| vmmUser ||| vmmWritable)) ≠
      (vmmPresent ||| vmmUser ||| vmmWritable) then m
  else m.setEntry table i ((e &&& ~~~vmmWritable) ||| vmmCopyOnWrite)

theorem protectUserMappingsCow_succ (level table : Nat) (m : Machine) :
    Memory.protectUserMappingsCow (level+1) table m =
      (List.range (userEntries (level+1))).foldl (protectEntry level table) m := by
  rw [Memory.protectUserMappingsCow]
  rfl

theorem protectEntry_leaf (hp : present (m.entry q i)=true) :
    protectEntry 0 q m i=m.setEntry q i (protectedEntry (m.entry q i)) := by
  unfold protectEntry protectedEntry
  simp only [hp,Bool.not_true,Bool.false_eq_true,if_false,ne_eq,not_true_eq_false]
  split_ifs
  · rfl
  · rw [setEntry_entry_eq]

theorem leafStep (hq : g.label q=some (r,path))
    (hl : path.length=3) (hi : i<512)
    (h : Protecting g r m₀ (pathNumber path*512+i) m n) :
    Protecting g r m₀ (pathNumber path*512+(i+1)) (protectEntry 0 q m i)
      (protectEntry 0 q n i) := by
  have f := h.twin.inv.forest
  obtain ⟨hpath,hmod,hvpn⟩ := pathOf_vpnOf (f.valid hq) hl hi
  have hentry : n.entry q i=m.entry q i := h.twin.entry_label (by simp [hq]) i
  have hleaf : leafAt m r (vpnOf path i) =
      if present (m.entry q i) then some (m.entry q i) else none := by
    rw [f.leafAt_of_label (by rw [hpath]; exact hq) hvpn,hmod]
  have hnumber := vpnOf_eq hl i
  cases hp : present (m.entry q i) with
  | false =>
    have hm : protectEntry 0 q m i=m := by simp [protectEntry,hp]
    have hn : protectEntry 0 q n i=n := by simp [protectEntry,hentry,hp]
    rw [hm,hn]
    apply h.skip (by omega)
    intro vpn h1 h2 _
    have hv : vpn=vpnOf path i := by omega
    rw [hv,hleaf,hp]
    rfl
  | true =>
    rw [hp,if_pos rfl] at hleaf
    obtain ⟨hu,hmanaged⟩ := f.leaf hq hl hi hp
    obtain ⟨hflags,hpage⟩ := protectedEntry_flags hp hu
    rw [protectEntry_leaf hp,protectEntry_leaf (by rw [hentry]; exact hp),hentry]
    have hset {s vpn : Nat} (hs : s ∈ g.roots) (hv : vpn<userPages) :=
      f.leafAt_setLeaf (e := protectedEntry (m.entry q i)) hq hl hi
        (fun _ => ⟨hflags.user,by rw [hpage]; exact hmanaged⟩) hs hv
    refine ⟨h.twin.changeLeaf hq hl hi hp hflags.present hflags.user hpage,
      h.keeps.trans (Keeps.setEntry _ hq),?_,?_⟩
    · intro s vpn hs hsr hv
      rw [hset hs hv,if_neg (fun hx => hsr hx.1),h.others hs hsr hv]
    intro vpn hv
    rw [hset (f.owner hq) hv,if_pos hflags.present]
    have hown := h.own hv
    by_cases hhere : vpn=vpnOf path i
    · rw [if_neg (by omega)] at hown
      rw [if_pos ⟨rfl,hhere⟩,if_pos (by omega),← hown,hhere,hleaf]
      rfl
    rw [if_neg (fun hx => hhere hx.2),hown]
    by_cases hlt : vpn<pathNumber path*512+i
    · rw [if_pos hlt,if_pos (by omega)]
    · rw [if_neg hlt,if_neg (by omega)]

theorem protectUserMappingsCow {level : Nat}
    (hq : g.label q=some (r,path)) (hl : level+1+path.length=4)
    (h : Protecting g r m₀ (pathNumber path*512 ^ (level+1)) m n) :
    Protecting g r m₀ (pathNumber path*512 ^ (level+1)+userBound path*512 ^ level)
      (protectUserMappingsCow (level+1) q m) (protectUserMappingsCow (level+1) q n) := by
  induction level generalizing q path m n with
  | zero =>
    have hl3 : path.length=3 := by omega
    have hbound : userBound path=512 := by
      apply if_neg
      rintro rfl
      cases hl3
    rw [hbound,protectUserMappingsCow_succ,protectUserMappingsCow_succ]
    simp only [Nat.zero_add,Nat.pow_one,Nat.pow_zero,Nat.mul_one] at h ⊢
    exact foldl_range (n := 512)
      (P := fun i m n => Protecting g r m₀ (pathNumber path*512+i) m n) (by simpa using h)
      (fun i s t hi h => h.leafStep hq hl3 hi)
  | succ level ih =>
    have hbound : userEntries (level+1+1)=userBound path := by
      unfold userEntries userBound
      cases path with
      | nil => rw [if_pos (by simpa using hl),if_pos rfl]
      | cons a rest =>
        simp only [length_cons] at hl
        rw [if_neg (by omega),if_neg (by simp)]
    rw [protectUserMappingsCow_succ,protectUserMappingsCow_succ,hbound]
    apply foldl_range (P := fun i m n => Protecting g r m₀
      (pathNumber path*512 ^ (level+1+1)+i*512 ^ (level+1)) m n) (by simpa using h)
    intro i s t hi h
    have f := h.twin.inv.forest
    have hpl : path.length<3 := by omega
    have hentry : t.entry q i=s.entry q i := h.twin.entry_label (by simp [hq]) i
    cases hp : present (s.entry q i) with
    | false =>
      have hs : protectEntry (level+1) q s i=s := by simp [protectEntry,hp]
      have ht : protectEntry (level+1) q t i=t := by simp [protectEntry,hentry,hp]
      rw [hs,ht]
      apply h.skip
      · rw [Nat.add_mul i]
        omega
      · intro vpn h1 h2 hv
        exact leafAt_absent f hq hpl hi hp ((mem_block_cons hl (by omega)).mpr ⟨h1,h2⟩)
    | true =>
      obtain ⟨hte,hchild⟩ := f.child hq hpl hi hp
      have hs : protectEntry (level+1) q s i =
          Memory.protectUserMappingsCow (level+1) (addressPage (s.entry q i)) s := by
        simp [protectEntry,hp,hte.notHuge]
      have ht : protectEntry (level+1) q t i =
          Memory.protectUserMappingsCow (level+1) (addressPage (s.entry q i)) t := by
        simp [protectEntry,hentry,hp,hte.notHuge]
      rw [hs,ht]
      rw [← pathNumber_cons_start] at h
      rw [← pathNumber_cons_end]
      exact ih hchild (by simp only [length_cons]; omega) h

end Protecting

namespace Twin

variable {g : Ghost} {m n : Machine}

/-- A fork of a space either fails and leaves all mappings, or the child maps the pages of
the parent and both have lost the right to write to them. -/
theorem vmmSpaceCloneCow (work : KernelWork) (t : Twin { g with held := kernelHeld m } m n)
    {space : VmmSpace} (hr : space.pml4Physical/4096 ∈ g.roots) :
    ∃ m' n' label',
      (vmmSpaceCloneCow work space m=(none,m') ∧ vmmSpaceCloneCow work space n=(none,n') ∧
        Twin { g with label := label', held := kernelHeld m' } m' n' ∧
        SameLeaves g.roots m m' ∧ SameContents g.roots m m' ∧ SameTables g.roots m m' ∧
        SameMap m.pmm m'.pmm) ∨
      ∃ c, vmmSpaceCloneCow work space m=(some ⟨c*4096,false⟩,m') ∧
        vmmSpaceCloneCow work space n=(some ⟨c*4096,false⟩,n') ∧ c ∉ g.roots ∧
        Twin { g with
          roots := insert c g.roots
          label := label'
          held := kernelHeld m' } m' n' ∧
        (∀ {s vpn}, s ∈ g.roots → s≠space.pml4Physical/4096 → vpn<userPages →
          leafAt m' s vpn=leafAt m s vpn) ∧
        (∀ {vpn}, vpn<userPages → leafAt m' (space.pml4Physical/4096) vpn =
          (leafAt m (space.pml4Physical/4096) vpn).map protectedEntry) ∧
        (∀ {vpn}, vpn<userPages → leafAt m' c vpn =
          (leafAt m (space.pml4Physical/4096) vpn).map sharedEntry) ∧
        SameContents g.roots m m' ∧ SameTables g.roots m m' ∧ SameMap m.pmm m'.pmm := by
  unfold Memory.vmmSpaceCloneCow
  generalize space.pml4Physical/4096=r at *
  obtain ⟨m1,n1,⟨hm1,hn1,t1,hleaves1,hkeeps1⟩ |
    ⟨c,label1,hm1,hn1,hnew,t1,hleaves1,hnone,hkeeps1⟩⟩ := t.vmmSpaceCreate work
  · rw [hm1,hn1]
    exact ⟨m1,n1,g.label,Or.inl ⟨rfl,rfl,t1,hleaves1,(hkeeps1.contents t :),
      (hkeeps1.sameTables t :),hkeeps1.map⟩⟩
  rw [hm1,hn1]
  dsimp only
  have hrc : r≠c := by
    rintro rfl
    exact hnew hr
  have hdiv : c*4096/4096=c := Nat.mul_div_cancel _ (by omega)
  have hroot1 := (t1.inv.forest.root r r).mpr ⟨rfl,Finset.mem_insert_of_mem hr⟩
  have hpage1 {s vpn : Nat} {e : BitVec 64} (hs : s ∈ g.roots) (hv : vpn<userPages)
      (he : leafAt m s vpn=some e) : leafPage m1 s vpn=some (addressPage e) := by
    rw [leafPage,hleaves1 hs hv,he]
    rfl
  have hc1 : SameContents g.roots m m1 := (hkeeps1.contents t :)
  have htables1 : SameTables g.roots m m1 := (hkeeps1.sameTables t :)
  have hnotc {s : Nat} (hs : s ∈ g.roots) : s≠c := by
    rintro rfl
    exact hnew hs
  have hstart : Cloning { g with
      roots := insert c g.roots
      label := label1
      held := kernelHeld m1 } r c m1 (pathNumber [] * 512 ^ (3+1)) label1 m1 n1 := by
    refine ⟨t1,Keeps.refl _ _ _,fun _ _ _ => rfl,?_⟩
    intro vpn hv
    rw [hnone hv,if_neg (by simp [pathNumber])]
  have hclone := hstart.cloneUserMappingsCow ⟨c*4096,false⟩ t1.inv
    (Finset.mem_insert_of_mem hr) (Finset.mem_insert_self _ _) hrc hdiv hroot1 rfl
  have hbase : pathNumber [] * 512 ^ (3+1)*4096=0 := rfl
  rw [hbase] at hclone
  rcases hclone with ⟨m2,n2,hm2,hn2,label2,h2⟩ | ⟨m2,n2,hm2,hn2,k,label2,h2⟩
  · -- all of the parent is shared, so it is protected too
    rw [hm2,hn2]
    dsimp only
    have hroot2 := (h2.twin.inv.forest.root r r).mpr ⟨rfl,Finset.mem_insert_of_mem hr⟩
    have hstart : Protecting { g with
        roots := insert c g.roots
        label := label2
        held := kernelHeld m1 } r m2 (pathNumber [] * 512 ^ (3+1)) m2 n2 := by
      refine ⟨h2.twin,Keeps.refl _ _ _,fun _ _ _ => rfl,?_⟩
      intro vpn hv
      rw [if_neg (by simp [pathNumber])]
    have h3 := hstart.protectUserMappingsCow hroot2 rfl
    have hall : pathNumber [] * 512 ^ (3+1)+userBound [] * 512 ^ 3=userPages := rfl
    rw [hall] at h2 h3
    have hkernel : kernelHeld (protectUserMappingsCow (3+1) r m2)=kernelHeld m1 :=
      kernelHeld_congr (h3.keeps.kernelPages.trans h2.keeps.kernelPages)
    refine ⟨_,_,label2,Or.inr ⟨c,rfl,rfl,hnew,?_,?_,?_,?_,?_,?_,?_⟩⟩
    · rw [hkernel]
      exact h3.twin
    · intro s vpn hs hsr hv
      rw [h3.others (Finset.mem_insert_of_mem hs) hsr hv,
        h2.others (Finset.mem_insert_of_mem hs) (hnotc hs) hv,hleaves1 hs hv]
    · intro vpn hv
      rw [h3.own hv,if_pos hv,h2.others (Finset.mem_insert_of_mem hr) hrc hv,hleaves1 hr hv]
    · intro vpn hv
      rw [h3.others (Finset.mem_insert_self _ _) (Ne.symm hrc) hv,h2.child hv,if_pos hv,
        hleaves1 hr hv]
    · have hc2 : SameContents (insert c g.roots) m1 m2 := (h2.keeps.contents t1 :)
      have hc3 : SameContents (insert c g.roots) m2 (protectUserMappingsCow (3+1) r m2) :=
        (h3.keeps.contents h2.twin :)
      refine hc1.trans (hc2.trans hc3 (Finset.Subset.refl _) ?_) (Finset.subset_insert _ _) hpage1
      intro s vpn e hs hv he
      by_cases hsc : s=c
      · rw [hsc,hnone hv] at he
        cases he
      · rw [leafPage,h2.others hs hsc hv,he]
        rfl
    · intro s path hs hp
      have hs' := Finset.mem_insert_of_mem (a := s) (b := c) hs
      -- protecting leaves keeps every table at its place
      have hprotect : tableAt (protectUserMappingsCow (3+1) r m2) s path =
          tableAt m2 s path := by
        apply Option.ext
        intro q
        rw [h3.twin.inv.forest.tableAt_iff hs' hp,h2.twin.inv.forest.tableAt_iff hs' hp]
      rw [hprotect,h2.keeps.tableAt_eq t1 hs' (hnotc hs) hp,htables1 hs hp]
    · exact (hkeeps1.map.trans h2.keeps.map).trans h3.keeps.map
  · rw [hm2,hn2]
    dsimp only
    obtain ⟨t3,hmem3,hfrees3⟩ := h2.twin.vmmSpaceDestroy ⟨c*4096,false⟩
      (by rw [hdiv]; exact Finset.mem_insert_self _ _) rfl
    simp only [hdiv,Finset.erase_insert hnew] at t3
    have hkernel : kernelHeld (Memory.vmmSpaceDestroy ⟨c*4096,false⟩ m2)=kernelHeld m1 :=
      kernelHeld_congr (hfrees3.kernelPages.trans h2.keeps.kernelPages)
    refine ⟨_,_,_,Or.inl ⟨rfl,rfl,by rw [hkernel]; exact t3,?_,?_,?_,?_⟩⟩
    · intro s vpn hs hv
      rw [leafAt_mem hmem3,h2.others (Finset.mem_insert_of_mem hs) (hnotc hs) hv,hleaves1 hs hv]
    · have hc2 : SameContents (insert c g.roots) m1
          (Memory.vmmSpaceDestroy ⟨c*4096,false⟩ m2) := by
        intro s vpn e hs hv he
        rw [hmem3]
        exact h2.keeps.contents t1 hs hv he
      exact hc1.trans hc2 (Finset.subset_insert _ _) hpage1
    · intro s path hs hp
      rw [tableAt_mem hmem3,
        h2.keeps.tableAt_eq t1 (Finset.mem_insert_of_mem hs) (hnotc hs) hp,htables1 hs hp]
    · exact (hkeeps1.map.trans h2.keeps.map).trans hfrees3.map

end Twin

end ConeOS.Memory
