import ConeOS.Memory.Clone

namespace ConeOS.Memory

open ConeOS.Library Machine Function

/-- No page of the space `r` is mapped anywhere else. -/
def Private (roots : Finset Nat) (r : Nat) (m : Machine) : Prop :=
  ∀ ⦃vpn e s v w⦄, vpn<userPages → leafAt m r vpn=some e → s ∈ roots → v<userPages →
    leafAt m s v=some w → addressPage w=addressPage e → s=r ∧ v=vpn

/-- A space `r` that only its creator knows is filled, from the machine `m₀` on. What is
dirty is mapped in it. -/
structure Loading (g : Ghost) (r : Nat) (m₀ : Machine) (label : Nat → Option Label)
    (dirty : Nat → Prop) (m n : Machine) : Prop where
  twin : Twin { g with label := label, dirty := dirty } m n
  kernelPages : m.kernelPages=m₀.kernelPages
  others : ∀ {s vpn}, s ∈ g.roots → s≠r → vpn<userPages → leafAt m s vpn=leafAt m₀ s vpn
  contents : ∀ {s vpn e}, s ∈ g.roots → s≠r → vpn<userPages → leafAt m₀ s vpn=some e →
    m.mem (addressPage e)=m₀.mem (addressPage e)
  tables : ∀ {s path}, s ∈ g.roots → s≠r → ValidPath path →
    tableAt m s path=tableAt m₀ s path
  managed : ∀ p, Memory.managed m.pmm p=Memory.managed m₀.pmm p
  own : Private g.roots r m
  dirtyOwn : ∀ {q}, dirty q → ∃ vpn e, vpn<userPages ∧ leafAt m r vpn=some e ∧
    addressPage e=q

/-- The space `r` has gained the pages `pages`, none of which it had. -/
structure Adds (r : Nat) (pages : Finset Nat) (m m' : Machine) : Prop where
  fresh : ∀ {v}, v ∈ pages → v<userPages ∧ leafAt m r v=none
  mapped : ∀ {v}, v<userPages → ((leafAt m' r v).isSome ↔ (leafAt m r v).isSome ∨ v ∈ pages)

/-- What the space `r` has mapped stays as it is. -/
def Extends (r : Nat) (m m' : Machine) : Prop :=
  ∀ ⦃v e⦄, v<userPages → leafAt m r v=some e →
    leafAt m' r v=some e ∧ m'.mem (addressPage e)=m.mem (addressPage e)

theorem Extends.refl (r : Nat) (m : Machine) : Extends r m m :=
  fun _ _ _ he => ⟨he,rfl⟩

theorem Extends.trans {r : Nat} {m m' m'' : Machine} (h : Extends r m m')
    (h' : Extends r m' m'') : Extends r m m'' := by
  intro v e hv he
  obtain ⟨he',hmem⟩ := h hv he
  obtain ⟨he'',hmem'⟩ := h' hv he'
  exact ⟨he'',hmem'.trans hmem⟩

section Adds

variable {r : Nat} {pages pages' : Finset Nat} {m m' m'' : Machine}

theorem Adds.of_same (h : ∀ {v}, v<userPages → leafAt m' r v=leafAt m r v) :
    Adds r ∅ m m' := by
  refine ⟨fun hv => absurd hv (Finset.notMem_empty _),?_⟩
  intro v hv
  simp [h hv]

theorem Adds.one {vpn : Nat} {e : BitVec 64} (hvpn : vpn<userPages)
    (hnone : leafAt m r vpn=none)
    (h : ∀ {v}, v<userPages → leafAt m' r v=if v=vpn then some e else leafAt m r v) :
    Adds r {vpn} m m' := by
  constructor
  · intro v hv
    rw [Finset.mem_singleton.mp hv]
    exact ⟨hvpn,hnone⟩
  · intro v hv
    rw [h hv,Finset.mem_singleton]
    split_ifs with hx <;> simp [hx]

theorem Adds.disjoint (h : Adds r pages m m') (h' : Adds r pages' m' m'') :
    Disjoint pages pages' := by
  rw [Finset.disjoint_left]
  intro v hv hv'
  have hsome := (h.mapped (h.fresh hv).1).mpr (Or.inr hv)
  rw [(h'.fresh hv').2] at hsome
  cases hsome

theorem Adds.trans (h : Adds r pages m m') (h' : Adds r pages' m' m'') :
    Adds r (pages ∪ pages') m m'' := by
  constructor
  · intro v hv
    rcases Finset.mem_union.mp hv with hv | hv
    · exact h.fresh hv
    obtain ⟨hlt,hnone⟩ := h'.fresh hv
    refine ⟨hlt,?_⟩
    cases hl : leafAt m r v with
    | none => rfl
    | some e =>
      have hsome := (h.mapped hlt).mpr (Or.inl (by rw [hl]; rfl))
      rw [hnone] at hsome
      cases hsome
  · intro v hv
    rw [h'.mapped hv,h.mapped hv,Finset.mem_union,or_assoc]

end Adds

namespace Loading

variable {g : Ghost} {r : Nat} {m₀ m n : Machine} {label : Nat → Option Label}
  {dirty : Nat → Prop} {space : VmmSpace} {flags : BitVec 64} {vpn : Nat} {e : BitVec 64}

/-- New contents for a page of the new space. -/
theorem setPage (h : Loading g r m₀ label dirty m n) (hr : r ∈ g.roots) (hv : vpn<userPages)
    (he : leafAt m r vpn=some e) {b b' : Block}
    (hb : n.mem (addressPage e)=m.mem (addressPage e) → b'=b)
    (htail : ∀ i, 512 ≤ i → b' i=b i) :
    Loading g r m₀ label dirty (m.setPage (addressPage e) b) (n.setPage (addressPage e) b') := by
  obtain ⟨hm,hbit,hlabel,hk⟩ := h.twin.leaf_page hr hv he
  have hleaf {s v : Nat} (hs : s ∈ g.roots) (hv' : v<userPages) :
      leafAt (m.setPage (addressPage e) b) s v=leafAt m s v :=
    h.twin.inv.leafAt_setPage hlabel hs hv' _
  refine ⟨h.twin.setPage hlabel hm (fun hclean _ _ => hb (h.twin.mem hbit hclean hk)) htail
    (fun _ _ hd => hd),h.kernelPages,?_,?_,?_,h.managed,?_,?_⟩
  · intro s v hs hsr hv'
    rw [hleaf hs hv',h.others hs hsr hv']
  · intro s v w hs hsr hv' hw
    rw [← h.contents hs hsr hv' hw]
    apply setPage_mem_of_ne
    intro hpage
    exact hsr (h.own hv he hs hv' (by rw [h.others hs hsr hv',hw]) hpage).1
  · intro s path hs hsr hp
    rw [← h.tables hs hsr hp]
    apply h.twin.inv.forest.tableAt_congr hs hp
    intro q path' hq
    apply setPage_mem_of_ne
    rintro rfl
    rw [hlabel] at hq
    cases hq
  · intro v w s v' w' hv1 hw hs hv2 hw' hpage
    rw [hleaf hr hv1] at hw
    rw [hleaf hs hv2] at hw'
    exact h.own hv1 hw hs hv2 hw' hpage
  · intro q hq
    obtain ⟨v,w,hv',hw,hpage⟩ := h.dirtyOwn hq
    exact ⟨v,w,hv',by rw [hleaf hr hv']; exact hw,hpage⟩

theorem writeBytes (h : Loading g r m₀ label dirty m n) (hr : r ∈ g.roots) (hv : vpn<userPages)
    (he : leafAt m r vpn=some e)
    (offset count : Nat) (f : Nat → UInt8) :
    Loading g r m₀ label dirty (m.writeBytes (addressPage e) offset count f)
      (n.writeBytes (addressPage e) offset count f) := by
  apply h.setPage hr hv he
  · intro hsame
    rw [hsame]
  · intro i hi
    rw [Library.writeBytes,Library.writeBytes,h.twin.tail hi]

theorem setEntry (h : Loading g r m₀ label dirty m n) (hr : r ∈ g.roots) (hv : vpn<userPages)
    (he : leafAt m r vpn=some e) (i : Nat)
    (w : BitVec 64) :
    Loading g r m₀ label dirty (m.setEntry (addressPage e) i w)
      (n.setEntry (addressPage e) i w) := by
  apply h.setPage hr hv he
  · intro hsame
    rw [hsame]
  · intro j hj
    rw [h.twin.tail hj]

/-- A page from the allocator goes into the new space, or back. -/
theorem mapPage (h : Loading g r m₀ label dirty m n) (hr : r ∈ g.roots)
    (hroot : space.pml4Physical/4096=r) (hu : hasFlag flags vmmUser=true) {p : Nat}
    (hfree : m.pmm.bitmap p=false) {m1 n1 : Machine} {dirty1 : Nat → Prop}
    (t1 : Twin { g with
      label := label
      held := update g.held p 1
      dirty := dirty1 } m1 n1)
    (hkeeps : Keeps r label label m m1) (hp1 : m1.pmm.bitmap p=true)
    (hleaves : SameLeaves g.roots m m1) (hd : ∀ q, dirty1 q → q=p ∨ dirty q) (address : Nat) :
    ∃ ok m2 n2 label', mapPageLocked space address (p*4096) flags m1=(ok,m2) ∧
      mapPageLocked space address (p*4096) flags n1=(ok,n2) ∧
      (ok=true → Loading g r m₀ label' dirty1 m2 n2 ∧ address<2 ^ 47 ∧
        leafAt m r (address/4096)=none ∧
        (∀ {v}, v<userPages → leafAt m2 r v =
          if v=address/4096 then some (leafEntry p flags) else leafAt m r v) ∧
        addressPage (leafEntry p flags)=p ∧ m2.mem p=m1.mem p ∧ Extends r m m2 ∧
        LeafFlags (leafEntry p flags) true (hasFlag flags vmmWritable)
          (hasFlag flags vmmCopyOnWrite) (hasFlag flags vmmNoExecute)) ∧
      (ok=false → Loading g r m₀ label' dirty (m2.freePage p) (n2.freePage p)) := by
  obtain ⟨hpm,hpl,hpmap,hpheld,hpk⟩ := h.twin.inv.free_page hfree
  have hplt : p<2 ^ 40 :=
    lt_of_lt_of_le (h.twin.inv.pmm.bound p hpm) h.twin.inv.pmm.addresses
  obtain ⟨ok,m2,n2,label2,hm2,hn2,hkeeps2,hfail,hok⟩ := t1.mapPageLocked
    (p := p) space address (by rw [hroot]; exact hr) hu
    (by simp) (by rw [hkeeps.kernelPages]; exact hpk)
  rw [hroot] at hkeeps2 hok
  have hsame {s vpn : Nat} {e : BitVec 64} (hs : s ∈ g.roots) (hv : vpn<userPages)
      (he : leafAt m s vpn=some e) : m2.mem (addressPage e)=m.mem (addressPage e) := by
    obtain ⟨-,hb,hl,-⟩ := h.twin.leaf_page hs hv he
    have hl (path : List Nat) : label (addressPage e)≠some (r,path) := by
      have hl : label (addressPage e)=none := hl
      rw [hl]
      simp
    obtain ⟨hmem1,-,hb1⟩ := hkeeps.page hb hl
    obtain ⟨hmem2,-⟩ := hkeeps2.page hb1 hl
    rw [hmem2,hmem1]
  have hcontents : ∀ {s vpn e}, s ∈ g.roots → s≠r → vpn<userPages →
      leafAt m₀ s vpn=some e → m2.mem (addressPage e)=m₀.mem (addressPage e) := by
    intro s vpn e hs hsr hv he
    rw [hsame hs hv (by rw [h.others hs hsr hv,he]),h.contents hs hsr hv he]
  have htables : ∀ {s path}, s ∈ g.roots → s≠r → ValidPath path →
      tableAt m2 s path=tableAt m₀ s path := by
    intro s path hs hsr hp
    rw [hkeeps2.tableAt_eq t1 hs hsr hp,hkeeps.tableAt_eq h.twin hs hsr hp,h.tables hs hsr hp]
  have hmanaged (q : Nat) : Memory.managed m2.pmm q=Memory.managed m₀.pmm q := by
    rw [hkeeps2.map.managed,hkeeps.map.managed,h.managed]
  refine ⟨ok,m2,n2,label2,hm2,hn2,?_,?_⟩
  · intro htrue
    obtain ⟨ha,-,hnone,t2,hleaf2⟩ := hok htrue
    obtain ⟨hflags,hpage⟩ := newLeaf_entry flags hplt
    change LeafFlags (leafEntry p flags) _ _ _ _ at hflags
    change addressPage (leafEntry p flags)=p at hpage
    rw [hu] at hflags
    simp only [update_self,Nat.sub_self,update_back 1 hpheld] at t2
    have hhere : leafAt m2 r (address/4096)=some (leafEntry p flags) := by
      rw [hleaf2 hr (vpn_lt ha),if_pos ⟨rfl,rfl⟩]
    -- a page that was free is mapped nowhere else
    have hnot {s v : Nat} {w : BitVec 64} (hs : s ∈ g.roots) (hv : v<userPages)
        (hw : leafAt m s v=some w) : addressPage w≠p := by
      intro hpw
      have hpos : 0 < mappings m g.roots p := by
        rw [← hpw]
        exact mappings_pos hs hv hw
      have hzero : mappings m g.roots p=0 := hpmap
      omega
    refine ⟨⟨t2,?_,?_,hcontents,htables,hmanaged,?_,?_⟩,ha,?_,?_,hpage,?_,?_,hflags⟩
    · rw [hkeeps2.kernelPages,hkeeps.kernelPages,h.kernelPages]
    · intro s vpn hs hsr hv
      rw [hleaf2 hs hv,if_neg (fun hx => hsr hx.1),hleaves hs hv,h.others hs hsr hv]
    · intro v e s v' w hv he hs hv' hw hpw
      rw [hleaf2 hr hv] at he
      rw [hleaf2 hs hv'] at hw
      by_cases h1 : r=r ∧ v=address/4096
      · rw [if_pos h1] at he
        cases he
        by_cases h2 : s=r ∧ v'=address/4096
        · exact ⟨h2.1,by rw [h2.2,h1.2]⟩
        · rw [if_neg h2,hleaves hs hv'] at hw
          rw [hpage] at hpw
          exact absurd hpw (hnot hs hv' hw)
      rw [if_neg h1,hleaves hr hv] at he
      by_cases h2 : s=r ∧ v'=address/4096
      · rw [if_pos h2] at hw
        cases hw
        rw [hpage] at hpw
        exact absurd hpw.symm (hnot hr hv he)
      · rw [if_neg h2,hleaves hs hv'] at hw
        exact h.own hv he hs hv' hw hpw
    · intro q hq
      rcases hd q hq with rfl | hq
      · exact ⟨_,_,vpn_lt ha,hhere,hpage⟩
      obtain ⟨v,e,hv,he,hpe⟩ := h.dirtyOwn hq
      refine ⟨v,e,hv,?_,hpe⟩
      rw [hleaf2 hr hv,if_neg,hleaves hr hv,he]
      rintro ⟨-,rfl⟩
      rw [hleaves hr hv,he] at hnone
      cases hnone
    · rw [← hleaves hr (vpn_lt ha)]
      exact hnone
    · intro v hv
      rw [hleaf2 hr hv,hleaves hr hv]
      simp only [true_and]
    · have hpl : label p=none := hpl
      exact (hkeeps2.page hp1 (by intro path; simp [hpl])).1
    intro v e hv he
    refine ⟨?_,hsame hr hv he⟩
    rw [hleaf2 hr hv,if_neg,hleaves hr hv,he]
    rintro ⟨-,rfl⟩
    rw [hleaves hr hv,he] at hnone
    cases hnone
  · intro hfalse
    obtain ⟨t2,hleaves2⟩ := hfail hfalse
    have hk2 : m2.kernelPages p=false := by
      rw [hkeeps2.kernelPages,hkeeps.kernelPages]
      exact hpk
    have t3 := t2.freePage (p := p) (by simp) (fun hx => by rw [hk2] at hx; cases hx)
    simp only [update_self,Nat.sub_self,update_back 1 hpheld] at t3
    have hleaf {s v : Nat} (hs : s ∈ g.roots) (hv : v<userPages) :
        leafAt (m2.freePage p) s v=leafAt m s v := by
      rw [leafAt_freePage,hleaves2 hs hv,hleaves hs hv]
    have hlabel2 : label2 p=none := by
      have hpl : label p=none := hpl
      rw [(hkeeps2.page hp1 (by intro path; simp [hpl])).2.1]
      exact hpl
    have hmap (q : Nat) : Memory.managed (m2.freePage p).pmm q=Memory.managed m2.pmm q :=
      (t2.freePage_frees r (p := p) (by simp)).map.managed q
    have hgone : (m2.freePage p).pmm.bitmap p=false := by
      apply t3.inv.unused_page _ hlabel2 _ hpheld
      · rw [hmap,hkeeps2.map.managed,hkeeps.map.managed]
        exact hpm
      · exact (mappings_congr (fun s hs v hv => hleaf hs hv) p).trans hpmap
    have t4 := t3.withDirty dirty (by
      intro q hb _ hq
      rcases hd q hq with rfl | hq
      · rw [hgone] at hb
        cases hb
      · exact Or.inl hq)
    refine ⟨t4,?_,?_,hcontents,?_,fun q => (hmap q).trans (hmanaged q),?_,?_⟩
    · show m2.kernelPages=_
      rw [hkeeps2.kernelPages,hkeeps.kernelPages,h.kernelPages]
    · intro s vpn hs hsr hv
      rw [hleaf hs hv,h.others hs hsr hv]
    · intro s path hs hsr hp
      have hmem : (m2.freePage p).mem=m2.mem := rfl
      rw [tableAt_mem hmem,htables hs hsr hp]
    · intro v e s v' w hv he hs hv' hw hpw
      rw [hleaf hr hv] at he
      rw [hleaf hs hv'] at hw
      exact h.own hv he hs hv' hw hpw
    · intro q hq
      obtain ⟨v,e,hv,he,hpe⟩ := h.dirtyOwn hq
      exact ⟨v,e,hv,by rw [hleaf hr hv]; exact he,hpe⟩

end Loading

end ConeOS.Memory
