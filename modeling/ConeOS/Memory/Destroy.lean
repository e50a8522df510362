import ConeOS.Memory.KernelPages

namespace ConeOS.Memory

open ConeOS.Library Machine Function List

/-- The pages `destroy_table` gives back, in its order. -/
def tablePages (m : Machine) : Nat → Nat → List Nat
  | 0, _ => []
  | level+1, page =>
    (List.range 512).flatMap (fun i =>
      let e := m.entry page i
      if !present e then []
      else if level == 0 || huge e then (if hasFlag e vmmUser then [addressPage e] else [])
      else tablePages m level (addressPage e)) ++ [page]

/-- The pages `vmm_space_destroy` gives back. -/
def spacePages (m : Machine) (root : Nat) : List Nat :=
  (List.range 256).flatMap (fun i =>
    let e := m.entry root i
    if present e then tablePages m 3 (addressPage e) else []) ++ [root]

def freeAll (pages : List Nat) (m : Machine) : Machine :=
  pages.foldl (fun m p => m.freePage p) m

section Lists

variable {k : Machine}

theorem freeAll_mem (pages : List Nat) (m : Machine) : (freeAll pages m).mem=m.mem := by
  induction pages generalizing m with
  | nil => rfl
  | cons p pages ih => exact (ih (m.freePage p)).trans rfl

theorem freeAll_append (ps qs : List Nat) (m : Machine) :
    freeAll (ps ++ qs) m=freeAll qs (freeAll ps m) := foldl_append

theorem foldl_freeAll (m : Machine) (body : Machine → Nat → Machine) (pages : Nat → List Nat)
    (h : ∀ k i, k.mem=m.mem → body k i=freeAll (pages i) k) (is : List Nat)
    (hk : k.mem=m.mem) : is.foldl body k=freeAll (is.flatMap pages) k := by
  induction is generalizing k with
  | nil => rfl
  | cons i is ih =>
    rw [foldl_cons,flatMap_cons,freeAll_append,h k i hk]
    exact ih ((freeAll_mem _ _).trans hk)

theorem destroyTable_eq {m : Machine} (level page : Nat) (hk : k.mem=m.mem) :
    destroyTable level page k=freeAll (tablePages m level page) k := by
  induction level generalizing page k with
  | zero => rfl
  | succ level ih =>
    have hloop := foldl_freeAll m (fun k i =>
        let e := k.entry page i
        if !present e then k
        else if level == 0 || huge e then
          if hasFlag e vmmUser then k.freePage (addressPage e) else k
        else destroyTable level (addressPage e) k)
      (fun i =>
        let e := m.entry page i
        if !present e then []
        else if level == 0 || huge e then (if hasFlag e vmmUser then [addressPage e] else [])
        else tablePages m level (addressPage e)) ?_ (List.range 512) hk
    · rw [destroyTable,tablePages,freeAll_append,hloop]
      rfl
    intro k' i hk'
    simp only [entry_mem hk']
    split_ifs
    · rfl
    · rfl
    · rfl
    · exact ih _ hk'

theorem vmmSpaceDestroy_eq {space : VmmSpace} (m : Machine) (h : space.isKernel=false) :
    vmmSpaceDestroy space m=freeAll (spacePages m (space.pml4Physical/4096)) m := by
  have hloop := foldl_freeAll m (fun k i =>
      let e := k.entry (space.pml4Physical/4096) i
      if present e then destroyTable 3 (addressPage e) k else k)
    (fun i =>
      let e := m.entry (space.pml4Physical/4096) i
      if present e then tablePages m 3 (addressPage e) else []) ?_ (List.range 256) rfl
  · rw [vmmSpaceDestroy,h,if_neg (by simp),spacePages,freeAll_append]
    exact congrArg (Machine.freePage _) hloop
  intro k i hk
  simp only [entry_mem hk]
  split_ifs
  · exact destroyTable_eq 3 _ hk
  · rfl

end Lists

section Counting

variable {path : List Nat} {q : Nat}

/-- The number whose digits in base 512 are the path. -/
def pathNumber : List Nat → Nat
  | [] => 0
  | i :: path => pathNumber path*512+i

theorem vpnOf_eq (hl : path.length=3) (i : Nat) :
    vpnOf path i=pathNumber path*512+i := by
  rcases path with _ | ⟨a,_ | ⟨b,_ | ⟨c,_ | ⟨d,rest⟩⟩⟩⟩
  all_goals try cases hl
  simp only [vpnOf,pathNumber]
  omega

/-- Whether `p` is a table at the place `path` of the space `r` or below it. -/
def below (label : Nat → Option Label) (r : Nat) (path : List Nat) (p : Nat) : Nat :=
  match label p with
  | none => 0
  | some l => if l.1=r ∧ path <:+ l.2 then 1 else 0

/-- The user pages below a place. -/
def block (path : List Nat) : Finset Nat :=
  Finset.Ico (pathNumber path*512 ^ (4-path.length))
    (pathNumber path*512 ^ (4-path.length)+userBound path*512 ^ (3-path.length))

variable {m : Machine} {roots : Finset Nat} {label : Nat → Option Label} {r : Nat}

theorem suffix_pathOf {vpn : Nat} (hv : ValidPath path)
    (h : vpn ∈ block path) (hl : path.length≤3) : path <:+ pathOf vpn := by
  rcases path with _ | ⟨a,_ | ⟨b,_ | ⟨c,_ | ⟨d,rest⟩⟩⟩⟩
  · exact nil_suffix
  · have ha : a<256 := hv.1
    simp only [block,Finset.mem_Ico,pathNumber,userBound,length_cons,length_nil,
      reduceCtorEq,if_false] at h
    refine ⟨[vpn/512%512,vpn/512 ^ 2%512],?_⟩
    have e0 : a=vpn/512 ^ 3%512 := by omega
    rw [e0]
    rfl
  · have ha : a<512 := hv.1
    have hb : b<256 := hv.2.2.1
    simp only [block,Finset.mem_Ico,pathNumber,userBound,length_cons,length_nil,
      reduceCtorEq,if_false] at h
    refine ⟨[vpn/512%512],?_⟩
    have e0 : b=vpn/512 ^ 3%512 := by omega
    have e1 : a=vpn/512 ^ 2%512 := by omega
    rw [e0,e1]
    rfl
  · have ha : a<512 := hv.1
    have hb : b<512 := hv.2.2.1
    have hc : c<256 := hv.2.2.2.2.1
    simp only [block,Finset.mem_Ico,pathNumber,userBound,length_cons,length_nil,
      reduceCtorEq,if_false] at h
    refine ⟨[],?_⟩
    have e0 : c=vpn/512 ^ 3%512 := by omega
    have e1 : b=vpn/512 ^ 2%512 := by omega
    have e2 : a=vpn/512%512 := by omega
    rw [e0,e1,e2]
    rfl
  · simp only [length_cons] at hl
    omega

/-- The blocks of the entries of a table make up its own. -/
theorem occurrences_block (hl : path.length<3) (f : Nat → Option Nat)
    (p : Nat) :
    occurrences (block path) f p =
      ((List.range (userBound path)).map (fun i => occurrences (block (i :: path)) f p)).sum := by
  rw [block,occurrences_blocks]
  apply congrArg List.sum
  apply map_congr_left
  intro i _
  have h4 : 512 ^ (4-path.length)=512*512 ^ (3-path.length) := by
    rw [← Nat.pow_succ']
    congr 1
    omega
  have h3 : 512 ^ (3-path.length)=512*512 ^ (2-path.length) := by
    rw [← Nat.pow_succ']
    congr 1
    omega
  have hlen : 4-(i :: path).length=3-path.length := by
    simp only [length_cons]
    omega
  have hlen' : 3-(i :: path).length=2-path.length := by
    simp only [length_cons]
    omega
  have hbound : userBound (i :: path)=512 := rfl
  have hstart : pathNumber (i :: path)*512 ^ (3-path.length) =
      pathNumber path*512 ^ (4-path.length)+i*512 ^ (3-path.length) := by
    rw [pathNumber,h4,Nat.add_mul,Nat.mul_assoc]
  rw [block,hlen,hlen',hbound,hstart,← h3]

theorem below_cons (label : Nat → Option Label) (r : Nat) (path : List Nat) (p : Nat)
    (hvalid : ∀ q r path, label q=some (r,path) → ValidPath path) :
    below label r path p=(if label p=some (r,path) then 1 else 0) +
      ((List.range (userBound path)).map (fun i => below label r (i :: path) p)).sum := by
  unfold below
  cases hp : label p with
  | none => simp
  | some l =>
    obtain ⟨s,path'⟩ := l
    by_cases hs : s=r
    case neg => simp [hs]
    subst hs
    simp only [true_and,Option.some.injEq,Prod.mk.injEq]
    by_cases hsuffix : path <:+ path'
    case neg =>
      have hnone (i : Nat) : ¬ (i :: path) <:+ path' :=
        fun h => hsuffix ((suffix_cons i path).trans h)
      have hne : path'≠path := fun h => hsuffix (h ▸ suffix_refl _)
      simp [hsuffix,hnone,hne]
    rw [if_pos hsuffix]
    obtain ⟨front,hfront⟩ := hsuffix
    rcases eq_nil_or_concat front with rfl | ⟨front',k,rfl⟩
    · have heq : path'=path := hfront.symm
      subst heq
      have hnone (i : Nat) : ¬ (i :: path') <:+ path' := by
        intro h
        have := h.length_le
        rw [length_cons] at this
        omega
      simp [hnone]
    rw [concat_eq_append,append_assoc,singleton_append] at hfront
    have hk : k<userBound path := by
      have := hvalid _ _ _ hp
      rw [← hfront] at this
      exact this.of_append.1
    have hne : path'≠path := by
      intro h
      have := congrArg List.length hfront
      rw [h,length_append,length_cons] at this
      omega
    have hiff (i : Nat) : (i :: path) <:+ path' ↔ i=k := by
      constructor
      · intro h
        have hk' : (k :: path) <:+ path' := ⟨front',hfront⟩
        have := (suffix_of_suffix_length_le h hk' (by simp)).eq_of_length (by simp)
        exact (List.cons.inj this).1
      · rintro rfl
        exact ⟨front',hfront⟩
    simp only [hiff,hne,if_false,Nat.zero_add]
    rw [sum_range_indicator,if_pos hk]

/-- Nothing hangs below an entry that is not present. -/
theorem count_absent (f : Forest m roots label) {i : Nat}
    (hq : label q=some (r,path)) (hl : path.length<3) (hi : i<userBound path)
    (habsent : present (m.entry q i)=false) (p : Nat) :
    below label r (i :: path) p+occurrences (block (i :: path)) (leafPage m r) p=0 := by
  have hr := f.owner hq
  have hv : ValidPath (i :: path) := ⟨hi,hl,f.valid hq⟩
  have htable : tableAt m r (i :: path)=none := by
    cases h : tableAt m r (i :: path) with
    | none => rfl
    | some c => exact absurd ((f.tableAt_iff hr hv).mp h) (f.no_table_below hq habsent)
  have hbelow : below label r (i :: path) p=0 := by
    unfold below
    cases hp : label p with
    | none => rfl
    | some l =>
      obtain ⟨s,path'⟩ := l
      dsimp only
      rw [if_neg]
      rintro ⟨rfl,front,hfront⟩
      have := (f.tableAt_iff hr (f.valid hp)).mpr hp
      rw [← hfront,tableAt_append htable] at this
      cases this
  have hleaf : occurrences (block (i :: path)) (leafPage m r) p=0 := by
    rw [occurrences_eq_zero]
    intro vpn hvpn
    obtain ⟨front,hfront⟩ := suffix_pathOf hv hvpn (by simp only [length_cons]; omega)
    rw [leafPage,leafAt,← hfront,tableAt_append htable]
    simp
  omega

/-- A table of the last level: itself and its leaves. -/
theorem count_leaves (f : Forest m roots label)
    (hq : label q=some (r,path)) (hl : path.length=3) (p : Nat) :
    (tablePages m 1 q).count p =
      below label r path p+occurrences (block path) (leafPage m r) p := by
  have hv := f.valid hq
  have hne : path≠[] := by
    rintro rfl
    cases hl
  have hbelow : below label r path p=if p=q then 1 else 0 := by
    unfold below
    cases hp : label p with
    | none =>
      have : p≠q := by
        rintro rfl
        rw [hq] at hp
        cases hp
      simp [this]
    | some l =>
      obtain ⟨s,path'⟩ := l
      have hiff : (s=r ∧ path <:+ path') ↔ p=q := by
        constructor
        · rintro ⟨rfl,hsuffix⟩
          have hlen : path'.length≤3 := (f.valid hp).length_le
          have heq := hsuffix.eq_of_length_le (by omega)
          subst heq
          exact f.label_unique hp hq
        · rintro rfl
          rw [hq] at hp
          cases hp
          exact ⟨rfl,suffix_refl _⟩
      simp only [hiff]
  have hblock : block path =
      Finset.Ico (pathNumber path*512) (pathNumber path*512+512*1) := by
    simp only [block,hl,userBound,hne,if_false]
    rfl
  have hsum : ((List.range 512).flatMap (fun i =>
        let e := m.entry q i
        if (!present e)=true then []
        else if (0 == 0 || huge e)=true then
          (if hasFlag e vmmUser=true then [addressPage e] else [])
        else tablePages m 0 (addressPage e))).count p =
      occurrences (block path) (leafPage m r) p := by
    rw [count_flatMap,hblock,occurrences_blocks]
    apply congrArg List.sum
    apply map_congr_left
    intro i hi
    rw [mem_range] at hi
    obtain ⟨hpath,hmod,hvpn⟩ := pathOf_vpnOf hv hl hi
    rw [occurrences_single,Nat.mul_one,← vpnOf_eq hl,leafPage,
      f.leafAt_of_label (by rw [hpath]; exact hq) hvpn,hmod,Function.comp_apply]
    cases hp : present (m.entry q i) with
    | false => simp [hp]
    | true =>
      have hu := (f.leaf hq hl hi hp).1
      simp [hp,hu,count_singleton]
  have hself : (if (q == p)=true then 1 else 0)=if p=q then 1 else 0 := by
    simp only [beq_iff_eq,@eq_comm Nat q p]
  rw [tablePages,count_append,count_singleton,hbelow,hself,hsum,Nat.add_comm]

/-- A table above the last level: itself and what its entries lead to. -/
theorem count_entries (f : Forest m roots label) (level : Nat)
    (hq : label q=some (r,path)) (hl : path.length<3) (p : Nat)
    (hchild : ∀ {c i}, label c=some (r, i :: path) → (tablePages m level c).count p =
      below label r (i :: path) p+occurrences (block (i :: path)) (leafPage m r) p) :
    ((List.range (userBound path)).map (fun i => if present (m.entry q i)=true then
        (tablePages m level (addressPage (m.entry q i))).count p else 0)).sum +
        (if q=p then 1 else 0) =
      below label r path p+occurrences (block path) (leafPage m r) p := by
  have hcons := below_cons label r path p (fun _ _ _ h => f.valid h)
  rw [hcons,occurrences_block hl]
  have hself : (if label p=some (r,path) then 1 else 0)=if q=p then 1 else 0 := by
    have hiff : label p=some (r,path) ↔ q=p := by
      constructor
      · intro h
        exact f.label_unique hq h
      · rintro rfl
        exact hq
    simp only [hiff]
  have hsum : (List.range (userBound path)).map (fun i => if present (m.entry q i)=true then
        (tablePages m level (addressPage (m.entry q i))).count p else 0) =
      (List.range (userBound path)).map (fun i => below label r (i :: path) p +
        occurrences (block (i :: path)) (leafPage m r) p) := by
    apply map_congr_left
    intro i hi
    rw [mem_range] at hi
    cases hp : present (m.entry q i) with
    | false => simp [count_absent f hq hl hi hp p]
    | true => simp [hchild (f.child hq hl hi hp).2]
  rw [hsum,hself,sum_map_add]
  omega

theorem count_tablePages (f : Forest m roots label) {level : Nat}
    (hq : label q=some (r,path)) (hlevel : level+path.length=4) (hne : path≠[])
    (p : Nat) : (tablePages m level q).count p =
      below label r path p+occurrences (block path) (leafPage m r) p := by
  induction level generalizing q path with
  | zero =>
    have := (f.valid hq).length_le
    omega
  | succ level ih =>
    by_cases h0 : level=0
    · subst h0
      exact count_leaves f hq (by omega) p
    have hl : path.length<3 := by omega
    have hbound : userBound path=512 := if_neg hne
    have hstep := count_entries f level hq hl p (fun hc => ih hc
      (by simp only [length_cons]; omega) (by simp))
    rw [← hstep,tablePages,count_append,count_flatMap,count_singleton,hbound]
    simp only [beq_iff_eq]
    apply congrArg (· + if q=p then 1 else 0)
    apply congrArg List.sum
    apply map_congr_left
    intro i hi
    rw [mem_range] at hi
    rw [Function.comp_apply]
    cases hp : present (m.entry q i) with
    | false => simp
    | true =>
      have hhuge := (f.child hq hl (by rw [hbound]; exact hi) hp).1.notHuge
      simp [h0,hhuge]

/-- A space gives back exactly what it refers to. -/
theorem count_spacePages (f : Forest m roots label) (hr : r ∈ roots) (p : Nat) :
    (spacePages m r).count p=MemInv.ownedBy m label r p := by
  have hroot := (f.root r r).mpr ⟨rfl,hr⟩
  have hstep := count_entries f 3 hroot (by simp) p
    (fun hc => count_tablePages f hc (by simp) (by simp) p)
  have hbelow : below label r [] p=if (label p).map Prod.fst=some r then 1 else 0 := by
    unfold below
    cases label p with
    | none => rfl
    | some l => simp
  have hblock : block []=Finset.range userPages := by
    rw [Finset.range_eq_Ico]
    simp [block,pathNumber,userBound,userPages]
  rw [hbelow,hblock] at hstep
  rw [MemInv.ownedBy]
  refine Eq.trans ?_ hstep
  rw [spacePages,count_append,count_flatMap,count_singleton]
  simp only [beq_iff_eq]
  apply congrArg (· + if r=p then 1 else 0)
  apply congrArg List.sum
  apply map_congr_left
  intro i _
  rw [Function.comp_apply]
  cases hp : present (m.entry r i) <;> simp

end Counting

namespace Twin

variable {g : Ghost} {m n : Machine}

/-- Giving back a list of pages that are all in hand. -/
theorem freeAll (pages : List Nat) (t : Twin g m n) (hheld : ∀ p, pages.count p≤g.held p)
    (hkernel : ∀ p, m.kernelPages p=true → pages.count p=0) :
    Twin { g with held := fun p => g.held p-pages.count p } (freeAll pages m)
        (freeAll pages n) ∧
      (Memory.freeAll pages m).kernelPages=m.kernelPages ∧
      (Memory.freeAll pages m).kernelRoot=m.kernelRoot ∧
      SameMap m.pmm (Memory.freeAll pages m).pmm := by
  induction pages generalizing g m n with
  | nil => exact ⟨t,rfl,rfl,SameMap.refl _⟩
  | cons p pages ih =>
    have hp : 0<g.held p := by
      have := hheld p
      rw [count_cons_self] at this
      omega
    have hk : m.kernelPages p≠true := by
      intro h
      have := hkernel p h
      rw [count_cons_self] at this
      omega
    have t1 := t.freePage hp (fun h => absurd h hk)
    have hleft (q : Nat) : pages.count q≤update g.held p (g.held p-1) q := by
      have := hheld q
      by_cases h : q=p
      · subst h
        rw [count_cons_self] at this
        rw [update_self]
        omega
      · rw [count_cons_of_ne (Ne.symm h)] at this
        rw [update_of_ne h]
        exact this
    have hrest (q : Nat) (hq : m.kernelPages q=true) : pages.count q=0 := by
      have := hkernel q hq
      rw [count_cons] at this
      omega
    have hsame : (fun q => update g.held p (g.held p-1) q-pages.count q) =
        fun q => g.held q-(p :: pages).count q := by
      funext q
      by_cases h : q=p
      · subst h
        rw [update_self,count_cons_self]
        omega
      · rw [update_of_ne h,count_cons_of_ne (Ne.symm h)]
    obtain ⟨t2,hk2,hr2,hs2⟩ := ih t1 hleft hrest
    simp only [hsame] at t2
    exact ⟨t2,hk2,hr2,(t.freePage_frees 0 hp).map.trans hs2⟩

theorem tablePages_eq (t : Twin g m n) {r q level : Nat} {path : List Nat}
    (hq : g.label q=some (r,path)) (hlevel : level+path.length=4) (hne : path≠[]) :
    tablePages n level q=tablePages m level q := by
  induction level generalizing q path with
  | zero => rfl
  | succ level ih =>
    rw [tablePages,tablePages,flatMap_def,flatMap_def]
    apply congrArg (List.flatten · ++ [q])
    apply map_congr_left
    intro i hi
    rw [mem_range] at hi
    simp only [t.entry_label (q := q) (by simp [hq])]
    cases hp : present (m.entry q i) with
    | false => simp
    | true =>
      by_cases h0 : level=0
      · subst h0
        simp
      · have hchild := t.inv.forest.child hq (by omega) (by rw [userBound,if_neg hne]; exact hi) hp
        rw [ih hchild.2 (by simp only [length_cons]; omega) (by simp)]

theorem spacePages_eq (t : Twin g m n) {r : Nat} (hr : r ∈ g.roots) :
    spacePages n r=spacePages m r := by
  have hroot := (t.inv.forest.root r r).mpr ⟨rfl,hr⟩
  rw [spacePages,spacePages,flatMap_def,flatMap_def]
  apply congrArg (List.flatten · ++ [r])
  apply map_congr_left
  intro i hi
  rw [mem_range] at hi
  simp only [t.entry_label (q := r) (by simp [hroot])]
  cases hp : present (m.entry r i) with
  | false => simp
  | true =>
    have hchild := t.inv.forest.child hroot (by simp) hi hp
    simp only [if_true]
    exact t.tablePages_eq hchild.2 (by simp) (by simp)

/-- Destroying a space gives back its tables and one reference for each of its leaves. -/
theorem vmmSpaceDestroy (t : Twin g m n) (space : VmmSpace)
    (hr : space.pml4Physical/4096 ∈ g.roots) (hk : space.isKernel=false) :
    Twin { g with
        roots := g.roots.erase (space.pml4Physical/4096)
        label := Forest.withoutRoot g.label (space.pml4Physical/4096) }
        (vmmSpaceDestroy space m) (vmmSpaceDestroy space n) ∧
      (Memory.vmmSpaceDestroy space m).mem=m.mem ∧
      Frees (space.pml4Physical/4096) g.label
        (Forest.withoutRoot g.label (space.pml4Physical/4096)) m
        (Memory.vmmSpaceDestroy space m) := by
  generalize hroot : space.pml4Physical/4096=root at *
  have hcount (p : Nat) : (spacePages m root).count p=MemInv.ownedBy m g.label root p :=
    count_spacePages t.inv.forest hr p
  rw [vmmSpaceDestroy_eq m hk,vmmSpaceDestroy_eq n hk,hroot,t.spacePages_eq hr]
  have t1 := t.dropRoot hr
  have hnone (p : Nat) (hp : m.kernelPages p=true) : MemInv.ownedBy m g.label root p=0 := by
    obtain ⟨hheld,hmapped⟩ := t.inv.kernelHeld hp
    have hlabel : g.label p=none := by
      by_contra h
      have := (t.inv.table h).2.2
      omega
    have hmap : mappings m g.roots p=mappings m (g.roots.erase root) p +
        occurrences (Finset.range userPages) (fun vpn => leafPage m root vpn) p :=
      occurrences_erase hr _ p
    rw [MemInv.ownedBy,hlabel]
    simp only [Option.map_none,reduceCtorEq,if_false]
    omega
  obtain ⟨t2,hk2,hr2,hs2⟩ := t1.freeAll (spacePages m root)
    (fun p => by simp only [hcount]; omega) (fun p hp => by rw [hcount,hnone p hp])
  have hback : (fun p => g.held p+MemInv.ownedBy m g.label root p-(spacePages m root).count p) =
      g.held := by
    funext p
    rw [hcount]
    omega
  simp only [hback] at t2
  refine ⟨t2,freeAll_mem _ _,?_,?_,hk2,hr2,hs2⟩
  · intro q hq
    refine ⟨?_,congrFun (freeAll_mem _ _) q⟩
    unfold Forest.withoutRoot
    cases hl : g.label q with
    | none => rfl
    | some l =>
      have : l.1≠root := by
        rintro rfl
        exact hq l.2 hl
      simp [this]
  · intro q hq
    rw [Forest.withoutRoot,hq]

end Twin

end ConeOS.Memory
