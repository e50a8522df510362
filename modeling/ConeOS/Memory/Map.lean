import ConeOS.Memory.Twin

namespace ConeOS.Memory

open ConeOS.Library Machine Function List

section Indices

variable {is path : List Nat}

theorem tableIndices_eq (address : Nat) :
    tableIndices address=(pathOf (address/4096)).reverse := by
  simp only [tableIndices,pathOf,reverse_cons,reverse_nil,nil_append,
    cons_append,List.cons.injEq,and_true]
  refine ⟨?_,?_,?_⟩ <;> omega

theorem leafIndex_eq (address : Nat) : leafIndex address=address/4096%512 := rfl

theorem vpn_lt {address : Nat} (h : address<2 ^ 47) : address/4096<userPages := by
  unfold userPages
  omega

theorem ValidPath.of_append (h : ValidPath (is ++ path)) :
    ValidPath path := by
  induction is with
  | nil => exact h
  | cons i is ih => exact ih h.2.2

theorem tableAt_append {m : Machine} {r : Nat} (h : tableAt m r path=none) :
    tableAt m r (is ++ path)=none := by
  induction is with
  | nil => exact h
  | cons i is ih => rw [cons_append,tableAt,ih]

end Indices

/-- The tables a mapping created, the last one first: each is empty but for the entry of the
one below, and hangs in the entry recorded with it. -/
def Chain (m : Machine) (label : Nat → Option Label) (r : Nat) :
    Option Nat → List (Nat × Nat × Nat) → Prop
  | _, [] => True
  | hole, (table,i,page) :: rest =>
    (∃ path, label table=some (r,path) ∧ label page=some (r, i :: path)) ∧
      (∀ j, j<512 → hole≠some j → present (m.entry page j)=false) ∧
      (∀ x ∈ rest.head?, x.2.2=table) ∧ Chain m label r (some i) rest

section Chain

variable {m m' : Machine} {label label' : Nat → Option Label} {r : Nat}
  {created : List (Nat × Nat × Nat)}

/-- A chain sees nothing below its first table. -/
theorem Chain.frame {hole : Option Nat} (depth : Nat)
    (h : Chain m label r hole created)
    (hhead : ∀ x ∈ created.head?, ∀ path, label x.2.2=some (r,path) → path.length<depth)
    (hlabel : ∀ q path, label q=some (r,path) → path.length<depth →
      label' q=some (r,path))
    (hentry : ∀ q path j, label q=some (r,path) → path.length<depth →
      m'.entry q j=m.entry q j) : Chain m' label' r hole created := by
  induction created generalizing hole with
  | nil => trivial
  | cons x rest ih =>
    obtain ⟨table,i,page⟩ := x
    obtain ⟨⟨path,htable,hpage⟩,hempty,hnext,hrest⟩ := h
    have hshort : (i :: path).length<depth := hhead (table,i,page) rfl _ hpage
    have hshort' : path.length<depth := by
      simp only [length_cons] at hshort
      omega
    refine ⟨⟨path,hlabel _ _ htable hshort',hlabel _ _ hpage hshort⟩,?_,hnext,?_⟩
    · intro j hj hne
      rw [hentry page _ j hpage hshort]
      exact hempty j hj hne
    apply ih hrest
    intro y hy path' hpath'
    rw [hnext y hy,htable] at hpath'
    cases hpath'
    exact hshort'

/-- The table under the head may have had its entry `i` changed. -/
theorem Chain.reopen {hole hole' : Option Nat}
    {table i : Nat} {path : List Nat} (h : Chain m label r hole created)
    (htable : label table=some (r,path)) (hhead : ∀ x ∈ created.head?, x.2.2=table)
    (hlabel : ∀ q path', label q=some (r,path') → path'.length≤path.length →
      label' q=some (r,path'))
    (hentry : ∀ q path' j, label q=some (r,path') → path'.length≤path.length →
      q≠table ∨ j≠i → m'.entry q j=m.entry q j)
    (hhole : ∀ j, j<512 → hole'≠some j →
      (hole≠some j ∧ j≠i) ∨ present (m'.entry table j)=false) :
    Chain m' label' r hole' created := by
  cases created with
  | nil => trivial
  | cons x rest =>
    obtain ⟨above,k,page⟩ := x
    have hpt : page=table := hhead (above,k,page) rfl
    subst hpt
    obtain ⟨⟨path',habove,hpage⟩,hempty,hnext,hrest⟩ := h
    have hpath : k :: path'=path := by
      rw [htable] at hpage
      cases hpage
      rfl
    have hlen : path'.length+1=path.length := by
      rw [← hpath]
      rfl
    refine ⟨⟨path',hlabel _ _ habove (by omega),hlabel _ _ hpage ?_⟩,?_,hnext,?_⟩
    · rw [hpath]
    · intro j hj hne
      rcases hhole j hj hne with ⟨hold,hji⟩ | habsent
      · rw [hentry page _ j htable (le_refl _) (Or.inr hji)]
        exact hempty j hj hold
      · exact habsent
    apply hrest.frame path.length
    · intro y hy path'' hp''
      rw [hnext y hy,habove] at hp''
      cases hp''
      omega
    · intro q path'' hq hlt
      exact hlabel q path'' hq (by omega)
    intro q path'' j hq hlt
    apply hentry q path'' j hq (by omega)
    left
    exact Forest.ne_of_length hq htable (by omega)

end Chain

/-- The leaf `map_page_locked` writes. -/
def leafEntry (page : Nat) (flags : BitVec 64) : BitVec 64 :=
  tableEntry page (vmmPresent ||| (flags &&& leafFlags))

theorem update_back {held : Nat → Nat} {p v : Nat} (w : Nat) (h : held p=v) :
    update (update held p w) p v=held := by
  rw [update_idem,← h,update_eq_self]

theorem leafAt_freePage (m : Machine) (p r vpn : Nat) :
    leafAt (m.freePage p) r vpn=leafAt m r vpn :=
  leafAt_mem rfl r vpn

namespace Twin

variable {g : Ghost} {m n : Machine} {r : Nat} {flags : BitVec 64} {q i : Nat} {path : List Nat}

theorem not_kernel_of_label (t : Twin g m n) (h : g.label q≠none) :
    m.kernelPages q=false := by
  by_contra hk
  have h1 := (t.inv.kernelHeld (by simpa using hk)).1
  have h2 := (t.inv.table h).2.2
  omega

theorem createTable (t : Twin g m n)
    (hq : g.label q=some (r,path)) (hl : path.length<3) (hi : i<userBound path)
    (hfree : present (m.entry q i)=false) (hu : hasFlag flags vmmUser=true) :
    (createTable q i flags m=(false,m) ∧ createTable q i flags n=(false,n)) ∨
      ∃ c m' n', createTable q i flags m=(true,m') ∧ createTable q i flags n=(true,n') ∧
        g.label c=none ∧ addressPage (m'.entry q i)=c ∧
        Twin { g with label := update g.label c (some (r, i :: path)) } m' n' ∧
        Keeps r g.label (update g.label c (some (r, i :: path))) m m' ∧
        SameLeaves g.roots m m' ∧ (∀ j, present (m'.entry c j)=false) ∧
        (∀ p j, g.label p≠none → p≠q ∨ j≠i → m'.entry p j=m.entry p j) := by
  unfold Memory.createTable allocPage
  rcases t.allocCleared 0 with ⟨hm,hn⟩ | ⟨c,hbit,hc,hm,hn,t1,hkeeps,hleaves⟩
  · left
    rw [hm,hn]
    exact ⟨rfl,rfl⟩
  right
  rw [hm,hn]
  obtain ⟨hmanaged,hlabel,hmapped,hheld,hkernel⟩ := t.inv.free_page hbit
  have hqc : q≠c := by
    rintro rfl
    rw [hlabel] at hq
    cases hq
  obtain ⟨hpresent,htable,hpage⟩ := newTable_entry hc hu
  have hentry (p j : Nat) (hp : p≠c) : ((m.take c).clearPage c).entry p j=m.entry p j := by
    rw [entry,clearPage_mem_of_ne _ hp]
    rfl
  have hempty (j : Nat) : present (((m.take c).clearPage c).entry c j)=false := by
    rw [clearPage_entry,present_zero]
  have hfree' : present (((m.take c).clearPage c).entry q i)=false := by
    rw [hentry q i hqc]
    exact hfree
  have hmapped' : mappings ((m.take c).clearPage c) g.roots c=0 := by
    rw [mappings_congr (fun r' hr vpn hv => hleaves hr hv),hmapped]
  have t2 := t1.link hq hl hi hfree' (update_self ..) hkernel hmapped'
    (by simp [clearPage]) hempty hpresent htable hpage
  simp only [update_back 1 hheld] at t2
  refine ⟨c,_,_,rfl,rfl,hlabel,?_,t2,?_,?_,?_,?_⟩
  · rw [setEntry_entry_self]
    exact hpage
  · refine ⟨?_,(hkeeps r).kernelPages,(hkeeps r).kernelRoot,(hkeeps r).map⟩
    intro p hb hp
    obtain ⟨hmem,-,hb'⟩ := (hkeeps r).page hb hp
    have hpc : p≠c := by
      rintro rfl
      rw [hbit] at hb
      cases hb
    have hpq : p≠q := by
      rintro rfl
      exact hp path hq
    exact ⟨(setEntry_mem_of_ne _ _ _ hpq).trans hmem,update_of_ne hpc ..,hb'⟩
  · apply hleaves.trans
    intro r' vpn hr hv
    exact t1.inv.forest.leafAt_link hq hl hi hfree' hlabel hempty hpresent htable hpage hr hv
  · intro j
    rw [setEntry_entry_of_ne _ _ (Or.inl (Ne.symm hqc))]
    exact hempty j
  intro p j hp hne
  have hpc : p≠c := by
    rintro rfl
    exact hp hlabel
  rw [setEntry_entry_of_ne _ _ hne,hentry p j hpc]

theorem descendCreating (hu : hasFlag flags vmmUser=true) {table : Nat}
    (is : List Nat) (created : List (Nat × Nat × Nat)) (t : Twin g m n)
    (hq : g.label table=some (r,path)) (hv : ValidPath (is.reverse ++ path))
    (hlen : (is.reverse ++ path).length=3) (hchain : Chain m g.label r none created)
    (hhead : ∀ x ∈ created.head?, x.2.2=table) :
    ∃ result created' m' n' label',
      descendCreating flags is table created m=(result,created',m') ∧
      descendCreating flags is table created n=(result,created',n') ∧
      Twin { g with label := label' } m' n' ∧ Keeps r g.label label' m m' ∧
      SameLeaves g.roots m m' ∧ Chain m' label' r none created' ∧
      ∀ table', result=some table' → label' table'=some (r,is.reverse ++ path) := by
  induction is generalizing g m n table path created with
  | nil =>
    refine ⟨some table,created,m,n,g.label,rfl,rfl,t,Keeps.refl _ _ _,SameLeaves.refl _ _,hchain,?_⟩
    intro table' h
    cases h
    exact hq
  | cons i is ih =>
    have happend : (i :: is).reverse ++ path=is.reverse ++ (i :: path) := by
      rw [reverse_cons,append_assoc,singleton_append]
    rw [happend] at hv hlen ⊢
    obtain ⟨hi,hl,-⟩ := hv.of_append
    have hentry := t.entry_label (q := table) (by simp [hq]) i
    rw [Memory.descendCreating,Memory.descendCreating,hentry]
    cases hpres : present (m.entry table i) with
    | false =>
      simp only [Bool.not_false,if_true]
      rcases t.createTable hq hl hi hpres hu with ⟨hm,hn⟩ |
        ⟨c,m1,n1,hm,hn,hc,hpage,t1,hkeeps,hleaves,hempty,hother⟩
      · rw [hm,hn]
        refine ⟨none,created,m,n,g.label,rfl,rfl,t,Keeps.refl _ _ _,SameLeaves.refl _ _,hchain,?_⟩
        intro table' h
        cases h
      rw [hm,hn]
      have hnpage : addressPage (n1.entry table i)=c := by
        rw [t1.entry_label,hpage]
        show update g.label c _ table≠none
        rw [update_of_ne]
        · simp [hq]
        · rintro rfl
          rw [hq] at hc
          cases hc
      have hold {q : Nat} {l : Label} (h : g.label q=some l) :
          update g.label c (some (r, i :: path)) q=some l := by
        rw [update_of_ne]
        · exact h
        · rintro rfl
          rw [hc] at h
          cases h
      have hchain1 : Chain m1 (update g.label c (some (r, i :: path))) r none
          ((table,i,c) :: created) := by
        refine ⟨⟨path,hold hq,update_self ..⟩,fun j _ _ => hempty j,hhead,?_⟩
        apply hchain.reopen hq hhead (fun q path' h _ => hold h)
        · intro q path' j h _ hne
          exact hother q j (by simp [h]) hne
        intro j hj hne
        left
        refine ⟨by simp,?_⟩
        rintro rfl
        exact hne rfl
      simp only [hpage,hnpage]
      obtain ⟨result,created',m',n',label',h1,h2,t',hk',hl',hch',hres⟩ :=
        ih _ t1 (update_self ..) hv hlen hchain1 (by simp)
      exact ⟨result,created',m',n',label',h1,h2,t',hkeeps.trans hk',hleaves.trans hl',hch',hres⟩
    | true =>
      obtain ⟨hte,hchild⟩ := t.inv.forest.child hq hl hi hpres
      simp only [Bool.not_true,Bool.false_eq_true,if_false,hte.notHuge]
      -- a table that was created here has no present entry
      have hnil : created=[] := by
        cases created with
        | nil => rfl
        | cons x rest =>
          obtain ⟨above,k,page⟩ := x
          have hpt : page=table := hhead (above,k,page) rfl
          have hi' : i<512 := by
            unfold userBound at hi
            split_ifs at hi <;> omega
          have habsent := hchain.2.1 i hi' (by simp)
          rw [hpt,hpres] at habsent
          cases habsent
      subst hnil
      exact ih _ t hchild hv hlen trivial (by simp)

/-- An empty table goes back to the allocator. -/
theorem releaseTable (t : Twin g m n) {c : Nat}
    (hq : g.label q=some (r,path)) (hc : g.label c=some (r, i :: path))
    (hempty : ∀ j, j<512 → present (m.entry c j)=false) :
    Twin { g with label := update g.label c none } ((m.setEntry q i 0).freePage c)
        ((n.setEntry q i 0).freePage c) ∧
      Keeps r g.label (update g.label c none) m ((m.setEntry q i 0).freePage c) ∧
      SameLeaves g.roots m ((m.setEntry q i 0).freePage c) := by
  obtain ⟨hmanaged,-,hheld⟩ := t.inv.table (p := c) (by simp [hc])
  have hkernel := t.not_kernel_of_label (q := c) (by simp [hc])
  obtain ⟨-,hother,-,-,hsame⟩ :=
    pmmFreePage_eq hmanaged (t.inv.bitmap_of_label (p := c) (by simp [hc]))
  have t1 := (t.unlink hq hc hempty).freePage (p := c) (by simp)
    (fun hk => absurd hk (by simpa [Machine.setEntry,Machine.setPage] using hkernel))
  simp only [update_self,Nat.sub_self,update_back 1 hheld] at t1
  refine ⟨t1,⟨?_,rfl,rfl,hsame⟩,?_⟩
  · intro p hb hp
    have hpq : p≠q := by
      rintro rfl
      exact hp path hq
    have hpc : p≠c := by
      rintro rfl
      exact hp (i :: path) hc
    refine ⟨setEntry_mem_of_ne m i 0 hpq,update_of_ne hpc ..,?_⟩
    · show (dropReference c m.pmm).bitmap p=true
      rw [(hother p hpc).1]
      exact hb
  · intro r' vpn hr hv
    rw [leafAt_freePage,t.inv.forest.leafAt_unlink hq hc hempty hr hv]

theorem rollback {created : List (Nat × Nat × Nat)} (t : Twin g m n)
    (hchain : Chain m g.label r none created) :
    ∃ label', Twin { g with label := label' } (rollback created m) (rollback created n) ∧
      Keeps r g.label label' m (rollback created m) ∧
      SameLeaves g.roots m (Memory.rollback created m) := by
  induction created generalizing g m n with
  | nil => exact ⟨g.label,t,Keeps.refl _ _ _,SameLeaves.refl _ _⟩
  | cons x rest ih =>
    obtain ⟨table,i,page⟩ := x
    obtain ⟨⟨path,htable,hpage⟩,hempty,hnext,hrest⟩ := hchain
    obtain ⟨t1,hkeeps,hleaves⟩ :=
      t.releaseTable htable hpage (fun j hj => hempty j hj (by simp))
    have hchain : Chain ((m.setEntry table i 0).freePage page) (update g.label page none) r
        none rest := by
      apply hrest.reopen htable hnext
      · intro q path' hq hlen
        rw [update_of_ne]
        · exact hq
        · exact Forest.ne_of_length hq hpage (by simp only [length_cons]; omega)
      · intro q path' j hq hlen hqj
        exact setEntry_entry_of_ne m 0 hqj
      intro j hj _
      by_cases hji : j=i
      · right
        subst hji
        show present ((m.setEntry table j 0).entry table j)=false
        rw [setEntry_entry_self,present_zero]
      left
      refine ⟨?_,hji⟩
      intro h
      exact hji (Option.some.inj h).symm
    obtain ⟨label',t',hk',hl'⟩ := ih t1 hchain
    exact ⟨label',t',hkeeps.trans hk',hleaves.trans hl'⟩

/-- The upper levels of a user page are marked already. -/
theorem markUser {is : List Nat} (f : Forest m g.roots g.label)
    (hq : g.label q=some (r,path)) (hv : ValidPath (is.reverse ++ path))
    (htable : tableAt m r (is.reverse ++ path)≠none) : markUser is q m=m := by
  induction is generalizing q path with
  | nil => rfl
  | cons i is ih =>
    have happend : (i :: is).reverse ++ path=is.reverse ++ (i :: path) := by
      rw [reverse_cons,append_assoc,singleton_append]
    rw [happend] at hv htable
    obtain ⟨hi,hl,hvp⟩ := hv.of_append
    have hr := f.owner hq
    have hhere : tableAt m r (i :: path)≠none := fun hnone => htable (tableAt_append hnone)
    obtain ⟨c,hc⟩ := Option.ne_none_iff_exists'.mp hhere
    have hclabel := (f.tableAt_iff hr hv.of_append).mp hc
    obtain ⟨q',hq',hpres,-⟩ := f.parent hclabel
    have hqq := f.label_unique hq' hq
    subst hqq
    obtain ⟨hte,hchild⟩ := f.child hq hl hi hpres
    have hmarked : m.entry q' i ||| vmmUser=m.entry q' i := by
      have hu := hte.user
      rw [user_bit] at hu
      apply BitVec.eq_of_getLsbD_eq
      intro k hk
      rw [BitVec.getLsbD_or,vmmUser_bit]
      by_cases h2 : k=2
      · subst h2
        rw [hu]
        rfl
      · simp [h2]
    rw [Memory.markUser,hmarked,setEntry_entry_eq]
    exact ih hchild hv htable

/-- Mapping a page in hand for the user. -/
theorem mapPageLocked (t : Twin g m n) (space : VmmSpace) (address : Nat) {p : Nat}
    (hr : space.pml4Physical/4096 ∈ g.roots) (hu : hasFlag flags vmmUser=true)
    (hp : 0<g.held p) (hk : m.kernelPages p=false) :
    ∃ ok m' n' label',
      mapPageLocked space address (p*4096) flags m=(ok,m') ∧
      mapPageLocked space address (p*4096) flags n=(ok,n') ∧
      Keeps (space.pml4Physical/4096) g.label label' m m' ∧
      (ok=false → Twin { g with label := label' } m' n' ∧ SameLeaves g.roots m m') ∧
      (ok=true → address<2 ^ 47 ∧ address%4096=0 ∧
        leafAt m (space.pml4Physical/4096) (address/4096)=none ∧
        Twin { g with label := label', held := update g.held p (g.held p-1) } m' n' ∧
        ∀ {r vpn}, r ∈ g.roots → vpn<userPages → leafAt m' r vpn =
          if r=space.pml4Physical/4096 ∧ vpn=address/4096 then some (leafEntry p flags)
          else leafAt m r vpn) := by
  unfold Memory.mapPageLocked
  by_cases hvalid : mapArgumentsValid space address (p*4096) flags=true
  case neg =>
    rw [Bool.not_eq_true] at hvalid
    simp only [hvalid,Bool.not_false,if_true]
    exact ⟨false,m,n,g.label,rfl,rfl,Keeps.refl _ _ _,fun _ => ⟨t,SameLeaves.refl _ _⟩,
      fun h => nomatch h⟩
  obtain ⟨ha,halign⟩ : address<2 ^ 47 ∧ address%4096=0 := by
    simp only [mapArgumentsValid,hu,Bool.not_eq_true',Bool.or_eq_false_iff,Bool.true_and,
      decide_eq_false_iff_not,bne_eq_false_iff_eq,Bool.and_eq_false_iff] at hvalid
    omega
  have hv := vpn_lt ha
  have hvalidPath := pathOf_valid hv
  have hrevpath : (tableIndices address).reverse ++ []=pathOf (address/4096) := by
    rw [tableIndices_eq,reverse_reverse,append_nil]
  have hroot := (t.inv.forest.root _ _).mpr ⟨rfl,hr⟩
  obtain ⟨result,created,m1,n1,label1,hm1,hn1,t1,hkeeps,hleaves,hchain,hfound⟩ :=
    t.descendCreating hu (tableIndices address) [] hroot (by rw [hrevpath]; exact hvalidPath)
      (by rw [hrevpath]; rfl) trivial (by simp)
  rw [hrevpath] at hfound
  simp only [hvalid,Bool.not_true,Bool.false_eq_true,if_false,hm1,hn1]
  obtain ⟨labelBack,tBack,hkeepsBack,hleavesBack⟩ := t1.rollback hchain
  cases result with
  | none =>
    exact ⟨false,_,_,labelBack,rfl,rfl,hkeeps.trans hkeepsBack,
      fun _ => ⟨tBack,hleaves.trans hleavesBack⟩,fun h => nomatch h⟩
  | some table =>
    have htable := hfound table rfl
    have hentry : n1.entry table (leafIndex address)=m1.entry table (leafIndex address) :=
      t1.entry_label (by simp [htable]) _
    simp only [hentry]
    have hi : leafIndex address<512 := Nat.mod_lt _ (by decide)
    cases hold : present (m1.entry table (leafIndex address)) with
    | true =>
      exact ⟨false,_,_,labelBack,rfl,rfl,hkeeps.trans hkeepsBack,
        fun _ => ⟨tBack,hleaves.trans hleavesBack⟩,fun h => nomatch h⟩
    | false =>
      have hm := t.inv.managed_of_held hp
      have hlt : p<2 ^ 40 := lt_of_lt_of_le (t.inv.pmm.bound p hm) t.inv.pmm.addresses
      have hdiv : p*4096/4096=p := Nat.mul_div_cancel _ (by omega)
      obtain ⟨hflags,hpage⟩ := newLeaf_entry flags hlt
      rw [hu] at hflags
      simp only [hdiv,hu,if_true,Bool.false_eq_true,if_false]
      change LeafFlags (leafEntry p flags) _ _ _ _ at hflags
      change addressPage (leafEntry p flags)=p at hpage
      change ∃ ok m' n' label', (true, Memory.markUser _ _ (m1.setEntry _ _ (leafEntry p flags))) =
        (ok,m') ∧ (true, Memory.markUser _ _ (n1.setEntry _ _ (leafEntry p flags)))=(ok,n') ∧ _
      generalize hedef : leafEntry p flags=e at *
      have t2 := t1.insertLeaf htable rfl hi hold hflags.present hflags.user
        (by rw [hpage]; exact hp) (by rw [hpage,hkeeps.kernelPages]; exact hk)
      simp only [hpage] at t2
      have hleaf {r vpn : Nat} (hr' : r ∈ g.roots) (hv' : vpn<userPages) :
          leafAt (m1.setEntry table (leafIndex address) e) r vpn =
            if r=space.pml4Physical/4096 ∧ vpn=address/4096 then some e
            else leafAt m r vpn := by
        rw [t1.inv.forest.leafAt_setLeaf htable rfl hi
          (fun _ => ⟨hflags.user,by rw [hpage,hkeeps.map.managed]; exact hm⟩) hr' hv',
          leafIndex_eq,vpnOf_pathOf _ hv,if_pos hflags.present,hleaves hr' hv']
      have hmark {k : Machine} (f : Forest k g.roots label1) :
          Memory.markUser (tableIndices address) (space.pml4Physical/4096) k=k := by
        have hroot1 := (t1.inv.forest.root _ _).mpr ⟨rfl,hr⟩
        apply markUser (g := { g with label := label1 }) f hroot1
        · rw [hrevpath]
          exact hvalidPath
        · rw [hrevpath,(f.tableAt_iff hr hvalidPath).mpr htable]
          simp
      rw [hmark t2.inv.forest,hmark t2.forest]
      refine ⟨true,_,_,label1,rfl,rfl,?_,fun h => (nomatch h),fun _ => ⟨ha,halign,?_,t2,hleaf⟩⟩
      · exact hkeeps.trans (Keeps.setEntry _ htable)
      · rw [← hleaves hr hv,t1.inv.forest.leafAt_of_label htable hv,← leafIndex_eq,hold]
        rfl

end Twin

end ConeOS.Memory
