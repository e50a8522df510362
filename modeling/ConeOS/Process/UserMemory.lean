import ConeOS.Memory.View
import ConeOS.Process.Run

namespace ConeOS.Process

open ConeOS.Library ConeOS.Memory

section Visible

variable {roots : Finset Nat} {m n : Machine} {space : VmmSpace}

/-- What a user-mode load finds is what the page holds. -/
theorem visibleIn_eq (h : InStep roots m n) (hr : space.pml4Physical/4096 ∈ roots)
    (address : Nat) : visibleIn space m address =
      if address<2 ^ 47 then userByte m (space.pml4Physical/4096) address else none := by
  rw [visibleIn,userAddressLimit]
  by_cases ha : address<2 ^ 47
  · rw [if_neg (by omega),if_pos ha,h.query hr ha,userByte]
    cases he : leafAt m (space.pml4Physical/4096) (address/4096) with
    | none =>
      rw [pageAt_of_none he]
      rfl
    | some e =>
      have hflag := (queryFlags_flags e).1
      have hpage : (addressPage e*4096+address%4096)/4096=addressPage e := by omega
      have hoffset : (addressPage e*4096+address%4096)%4096=address%4096 := by omega
      rw [h.leaf_user hr (vpn_lt ha) he] at hflag
      simp only [pageAt_of_leaf he,Option.map_some,hflag,if_true,hpage,hoffset]
  · rw [if_pos (by omega),if_neg ha]

end Visible

theorem userRangeValid_iff (address size : Nat) : userRangeValid address size=true ↔
    address<2 ^ 47 ∧ address+size≤2 ^ 47 := by
  rw [userRangeValid,Bool.and_eq_true,decide_eq_true_eq,decide_eq_true_eq,userAddressLimit]
  omega

section CopyTo

variable {roots : Finset Nat} {m₀ m n : Machine} {space : VmmSpace} {root address copied : Nat}
  {bytes : List UInt8}

/-- After `copied` bytes of a copy to user memory that began in `m₀`. -/
structure CopyState (roots : Finset Nat) (root address : Nat) (bytes : List UInt8)
    (m₀ : Machine) (copied : Nat) (m n : Machine) : Prop where
  inStep : InStep roots m n
  kernel : SameKernel m₀ m
  exclusive : Exclusive roots m₀ → Exclusive roots m
  le : copied≤bytes.length
  ahead : copied<bytes.length → ∀ {v}, (address+copied)/4096≤v → v<userPages →
    leafAt m root v=leafAt m₀ root v
  byte : ∀ {r a}, r ∈ roots → a<2 ^ 47 → userByte m r a =
    if r=root ∧ address≤a ∧ a<address+copied then some (bytes.getD (a-address) 0)
    else userByte m₀ r a
  touched : ∀ {a}, address≤a → a<address+copied → ∃ e,
    leafAt m₀ root (a/4096)=some e ∧
      (hasFlag e vmmWritable=true ∨ hasFlag e vmmCopyOnWrite=true)

theorem CopyState.start (h : InStep roots m₀ n) :
    CopyState roots root address bytes m₀ 0 m₀ n := by
  refine ⟨h,SameKernel.refl _,fun he => he,Nat.zero_le _,fun _ _ _ _ => rfl,?_,?_⟩
  · intro r a _ _
    rw [if_neg (by omega)]
  · intro a h1 h2
    omega

theorem physical_page (page address : Nat) : (page*4096+address%4096)/4096=page := by
  omega

theorem physical_offset (page address : Nat) :
    (page*4096+address%4096)%4096=address%4096 := by
  omega

/-- How many bytes a round of `copy_user` copies. -/
def chunkAt (address copied size : Nat) : Nat :=
  min (4096-(address+copied)%4096) (size-copied)

/-- A round fails with memory as it was, or finds a page of its own to write to. -/
theorem copyToUserFrom_round (h : InStep roots m n) (hr : space.pml4Physical/4096 ∈ roots)
    (ha : address+copied<2 ^ 47) (hlt : copied<bytes.length) (rounds : Nat) :
    (copyToUserFrom space address bytes (rounds+1) copied m=(copied,false,m) ∧
        copyToUserFrom space address bytes (rounds+1) copied n=(copied,false,n) ∧
        ∀ e, leafAt m (space.pml4Physical/4096) ((address+copied)/4096)=some e →
          (hasFlag e vmmWritable=true ∨ hasFlag e vmmCopyOnWrite=true) →
          ¬ (hasFlag e vmmWritable=true ∧ hasFlag e vmmCopyOnWrite=true) →
          m.allocUserPage=(none,m)) ∨
      ∃ e e' m' n', InStep roots m' n' ∧ SamePages roots m m' ∧ SameKernel m m' ∧
        leafAt m (space.pml4Physical/4096) ((address+copied)/4096)=some e ∧
        (hasFlag e vmmWritable=true ∨ hasFlag e vmmCopyOnWrite=true) ∧
        OneLeaf roots (space.pml4Physical/4096) ((address+copied)/4096) (some e') m m' ∧
        hasFlag e' vmmWritable=true ∧ hasFlag e' vmmCopyOnWrite=false ∧
        copyToUserFrom space address bytes (rounds+1) copied m =
          copyToUserFrom space address bytes rounds (copied+chunkAt address copied bytes.length)
            (m'.writeBytes (addressPage e') ((address+copied)%4096)
              (chunkAt address copied bytes.length) (fun i => bytes.getD (copied+i) 0)) ∧
        copyToUserFrom space address bytes (rounds+1) copied n =
          copyToUserFrom space address bytes rounds (copied+chunkAt address copied bytes.length)
            (n'.writeBytes (addressPage e') ((address+copied)%4096)
              (chunkAt address copied bytes.length) (fun i => bytes.getD (copied+i) 0)) := by
  have hv := vpn_lt ha
  have hmore : ¬ bytes.length≤copied := by omega
  simp only [copyToUserFrom,if_neg hmore,h.vmmSpaceQuery_eq hr ha,h.query hr ha]
  cases he : leafAt m (space.pml4Physical/4096) ((address+copied)/4096) with
  | none => exact Or.inl ⟨rfl,rfl,fun e hx => by cases hx⟩
  | some e =>
    obtain ⟨hu,hw,hc,-⟩ := queryFlags_flags e
    rw [h.leaf_user hr hv he] at hu
    simp only [Option.map_some,hc]
    cases hcow : hasFlag e vmmCopyOnWrite with
    | true =>
      rcases h.vmmSpaceResolveCow hr ha with ⟨result,hle,hm,hn,halloc⟩ |
        ⟨old,e',m',n',hm,hn,h',hpages,hkernel,hold,-,-,hleaf,hflags⟩
      · left
        rw [hm,hn]
        simp only [if_true,if_pos hle]
        refine ⟨trivial,trivial,fun w hx _ hnot => ?_⟩
        cases hx
        exact (halloc e he (by simpa [hcow] using hnot) hcow).1
      right
      have he' : leafAt m' (space.pml4Physical/4096) ((address+copied)/4096) =
          some e' := by
        rw [hleaf hr hv,if_pos ⟨rfl,rfl⟩]
      obtain ⟨hu',hw',-,-⟩ := queryFlags_flags e'
      rw [hflags.user] at hu'
      rw [hflags.writable] at hw'
      refine ⟨e,e',m',n',h',hpages,hkernel,rfl,Or.inr hcow,hleaf,hflags.writable,hflags.cow,?_⟩
      rw [hm,hn]
      simp only [if_true,if_neg (by omega : ¬ (1 : Int)≤0),h'.vmmSpaceQuery_eq hr ha,
        h'.query hr ha,he',Option.map_some,hu',hw',Bool.not_true,Bool.or_self,
        Bool.false_eq_true,if_false,chunkAt,physical_page,physical_offset]
      exact ⟨trivial,trivial⟩
    | false =>
      simp only [Bool.false_eq_true,if_false,hu,hw,Bool.not_true,Bool.false_or]
      cases hwrite : hasFlag e vmmWritable with
      | false =>
        left
        refine ⟨rfl,rfl,fun w hx hor => ?_⟩
        cases hx
        rw [hwrite,hcow] at hor
        simp at hor
      | true =>
        right
        refine ⟨e,e,m,n,h,SamePages.refl _ _,SameKernel.refl _,rfl,Or.inl hwrite,?_,hwrite,hcow,?_⟩
        · intro r v hr' hv'
          split_ifs with hx
          · rw [hx.1,hx.2,he]
          · rfl
        · simp only [Bool.not_true,Bool.false_eq_true,if_false,chunkAt,physical_page,
            physical_offset]
          exact ⟨trivial,trivial⟩

theorem chunkAt_pos (address : Nat) (hlt : copied<bytes.length) :
    0<chunkAt address copied bytes.length ∧
      copied+chunkAt address copied bytes.length≤bytes.length ∧
      (address+copied)%4096+chunkAt address copied bytes.length≤4096 ∧
      (copied+chunkAt address copied bytes.length<bytes.length →
        (address+copied)%4096+chunkAt address copied bytes.length=4096) := by
  unfold chunkAt
  omega

/-- The bytes of user memory after a write to the page of a leaf that is alone on it. -/
theorem userByte_writeBytes (h : InStep roots m n) {v : Nat} {e : BitVec 64} (hr : root ∈ roots)
    (hv : v<userPages) (he : leafAt m root v=some e) (hw : hasFlag e vmmWritable=true)
    {offset count : Nat} (hfit : offset+count≤4096) (f : Nat → UInt8) {r a : Nat}
    (hr' : r ∈ roots) (ha : a<2 ^ 47) :
    userByte (m.writeBytes (addressPage e) offset count f) r a =
      if r=root ∧ v*4096+offset≤a ∧ a<v*4096+offset+count then
        some (f (a-(v*4096+offset)))
      else userByte m r a := by
  obtain ⟨-,-,hapart⟩ := id h
  have hone := h.writeBytes_pages hr hv he (hapart hr hv he hw) offset count f
  rw [userByte,hone hr' (vpn_lt ha),userByte]
  by_cases hhere : r=root ∧ a/4096=v
  · obtain ⟨rfl,rfl⟩ := hhere
    rw [if_pos ⟨rfl,rfl⟩,pageAt_of_leaf he]
    simp only [Option.map_some,readByte_writeBytes,true_and]
    have hiff : (offset≤a%4096 ∧ a%4096<offset+count) ↔
        (a/4096*4096+offset≤a ∧ a<a/4096*4096+offset+count) := by omega
    by_cases hin : offset≤a%4096 ∧ a%4096<offset+count
    · rw [if_pos hin,if_pos (hiff.mp hin)]
      congr 2
      omega
    · rw [if_neg hin,if_neg (fun hx => hin (hiff.mpr hx))]
  · rw [if_neg hhere,if_neg]
    rintro ⟨rfl,h1,h2⟩
    exact hhere ⟨rfl,by omega⟩

theorem CopyState.advance (h : CopyState roots root address bytes m₀ copied m n)
    (hr : root ∈ roots) (hbound : address+bytes.length≤2 ^ 47)
    (hlt : copied<bytes.length) {e e' : BitVec 64} {m' n' : Machine} (h' : InStep roots m' n')
    (hpages : SamePages roots m m') (hkernel : SameKernel m m')
    (he : leafAt m root ((address+copied)/4096)=some e)
    (hflag : hasFlag e vmmWritable=true ∨ hasFlag e vmmCopyOnWrite=true)
    (hleaf : OneLeaf roots root ((address+copied)/4096) (some e') m m')
    (hw : hasFlag e' vmmWritable=true) (hc : hasFlag e' vmmCopyOnWrite=false) :
    CopyState roots root address bytes m₀ (copied+chunkAt address copied bytes.length)
      (m'.writeBytes (addressPage e') ((address+copied)%4096)
        (chunkAt address copied bytes.length) (fun i => bytes.getD (copied+i) 0))
      (n'.writeBytes (addressPage e') ((address+copied)%4096)
        (chunkAt address copied bytes.length) (fun i => bytes.getD (copied+i) 0)) := by
  have hv := vpn_lt (by omega : address+copied<2 ^ 47)
  obtain ⟨hpos,hle,hfit,hmore⟩ := chunkAt_pos address hlt
  generalize chunkAt address copied bytes.length=chunk at hpos hle hfit hmore ⊢
  have he' : leafAt m' root ((address+copied)/4096)=some e' := by
    rw [hleaf hr hv,if_pos ⟨rfl,rfl⟩]
  obtain ⟨h2,hsame⟩ := h'.writeBytes hr hv he' ((address+copied)%4096) chunk
    (fun i => bytes.getD (copied+i) 0)
  refine ⟨h2,(h.kernel.trans hkernel).trans (h'.writeBytes_kernel hr hv he' _ _ _),?_,hle,?_,?_,?_⟩
  · intro hx
    refine ((h.exclusive hx).replace hleaf ?_).of_leaves hsame
    intro w hw'
    cases hw'
    rw [hc]
    simp
  · intro hlt' v hv1 hv2
    have hnext := hmore hlt'
    rw [hsame hr hv2,hleaf hr hv2,if_neg (by omega),h.ahead hlt (by omega) hv2]
  · intro r a hr' ha
    rw [userByte_writeBytes h' hr hv he' hw hfit _ hr' ha,hpages.userByte hr' ha,h.byte hr' ha]
    have hstart : (address+copied)/4096*4096+(address+copied)%4096 =
        address+copied := by omega
    rw [hstart]
    by_cases hnew : r=root ∧ address+copied≤a ∧ a<address+copied+chunk
    · rw [if_pos hnew,if_pos ⟨hnew.1,by omega,by omega⟩]
      congr 2
      omega
    rw [if_neg hnew]
    by_cases hold : r=root ∧ address≤a ∧ a<address+copied
    · rw [if_pos hold,if_pos ⟨hold.1,hold.2.1,by omega⟩]
    rw [if_neg hold,if_neg]
    rintro ⟨rfl,h1,h2⟩
    by_cases h3 : a<address+copied
    · exact hold ⟨rfl,h1,h3⟩
    · exact hnew ⟨rfl,by omega,by omega⟩
  · intro a h1 h3
    by_cases h4 : a<address+copied
    · exact h.touched h1 h4
    · have hpage : a/4096=(address+copied)/4096 := by omega
      rw [hpage,← h.ahead hlt (le_refl _) hv]
      exact ⟨e,he,hflag⟩

/-- The whole loop: it copies everything, or stops at a page it cannot have. -/
theorem copyToUserFrom_spec (hroot : space.pml4Physical/4096=root) (hr : root ∈ roots)
    (hbound : address+bytes.length≤2 ^ 47) {rounds : Nat}
    (hrounds : bytes.length≤copied+rounds)
    (h : CopyState roots root address bytes m₀ copied m n) :
    ∃ k done m' n', copyToUserFrom space address bytes rounds copied m=(k,done,m') ∧
      copyToUserFrom space address bytes rounds copied n=(k,done,n') ∧
      CopyState roots root address bytes m₀ k m' n' ∧ (done=true → k=bytes.length) ∧
      (done=false → k<bytes.length ∧
        ∀ e, leafAt m' root ((address+k)/4096)=some e →
          (hasFlag e vmmWritable=true ∨ hasFlag e vmmCopyOnWrite=true) →
          ¬ (hasFlag e vmmWritable=true ∧ hasFlag e vmmCopyOnWrite=true) →
          m'.allocUserPage=(none,m')) := by
  subst hroot
  induction rounds generalizing copied m n with
  | zero =>
    have hle := h.le
    exact ⟨copied,true,m,n,rfl,rfl,h,fun _ => by omega,fun hx => by cases hx⟩
  | succ rounds ih =>
    by_cases hlt : copied<bytes.length
    · have ha : address+copied<2 ^ 47 := by omega
      rcases copyToUserFrom_round h.inStep hr ha hlt rounds with ⟨hm,hn,halloc⟩ |
        ⟨e,e',m',n',h',hpages,hkernel,he,hflag,hleaf,hw,hc,hm,hn⟩
      · exact ⟨copied,false,m,n,hm,hn,h,fun hx => (by cases hx),fun _ => ⟨hlt,halloc⟩⟩
      rw [hm,hn]
      obtain ⟨hpos,-,-,-⟩ := chunkAt_pos address hlt
      exact ih (by omega)
        (h.advance hr hbound hlt h' hpages hkernel he hflag hleaf hw hc)
    · have hle := h.le
      simp only [copyToUserFrom,if_pos (by omega : bytes.length≤copied)]
      exact ⟨copied,true,m,n,rfl,rfl,h,fun _ => by omega,fun hx => by cases hx⟩

end CopyTo

section Loops

variable {roots : Finset Nat} {m n : Machine} {space : VmmSpace} {address : Nat}

/-- The pages of a range are gone, the others are as they were. -/
structure Unmapped (roots : Finset Nat) (root first count : Nat) (m m' : Machine) : Prop where
  kernel : SameKernel m m'
  leaf : ∀ {r v}, r ∈ roots → v<userPages → leafAt m' r v =
    if r=root ∧ first≤v ∧ v<first+count then none else leafAt m r v
  page : ∀ {r v}, r ∈ roots → v<userPages → pageAt m' r v =
    if r=root ∧ first≤v ∧ v<first+count then none else pageAt m r v

theorem Unmapped.nothing (roots : Finset Nat) (root first : Nat) (m : Machine) :
    Unmapped roots root first 0 m m := by
  refine ⟨SameKernel.refl m,?_,?_⟩
  · intro r v _ _
    rw [if_neg (by omega)]
  · intro r v _ _
    rw [if_neg (by omega)]

theorem Unmapped.cons {root first count : Nat} {m' m'' : Machine} (hkernel : SameKernel m m')
    (hleaf : OneLeaf roots root first none m m') (hpage : OnePage roots root first none m m')
    (h : Unmapped roots root (first+1) count m' m'') :
    Unmapped roots root first (count+1) m m'' := by
  have hsplit (r v : Nat) : (r=root ∧ first≤v ∧ v<first+(count+1)) ↔
      (r=root ∧ first+1≤v ∧ v<first+1+count) ∨ (r=root ∧ v=first) := by omega
  have hboth {α : Type} (r v : Nat) (x : Option α) :
      (if r=root ∧ first+1≤v ∧ v<first+1+count then none
        else if r=root ∧ v=first then none else x) =
      if r=root ∧ first≤v ∧ v<first+(count+1) then none else x := by
    by_cases h1 : r=root ∧ first+1≤v ∧ v<first+1+count
    · rw [if_pos h1,if_pos ((hsplit r v).mpr (Or.inl h1))]
    · by_cases h2 : r=root ∧ v=first
      · rw [if_neg h1,if_pos h2,if_pos ((hsplit r v).mpr (Or.inr h2))]
      · rw [if_neg h1,if_neg h2,if_neg (fun hx => ((hsplit r v).mp hx).elim h1 h2)]
  refine ⟨hkernel.trans h.kernel,?_,?_⟩
  · intro r v hr hv
    rw [h.leaf hr hv,hleaf hr hv,hboth]
  · intro r v hr hv
    rw [h.page hr hv,hpage hr hv,hboth]

theorem Unmapped.exclusive {root first count : Nat} {m' : Machine}
    (h : Unmapped roots root first count m m') (hx : Exclusive roots m) : Exclusive roots m' := by
  intro r v e hr hv he
  rw [h.leaf hr hv] at he
  split_ifs at he
  exact hx hr hv he

theorem unmapPages_spec (h : InStep roots m n) (hr : space.pml4Physical/4096 ∈ roots)
    (count : Nat) (hbound : address+count*4096≤2 ^ 47) (halign : address%4096=0) :
    InStep roots (unmapPages space count address m) (unmapPages space count address n) ∧
      Unmapped roots (space.pml4Physical/4096) (address/4096) count m
        (unmapPages space count address m) := by
  induction count generalizing address m n with
  | zero => exact ⟨h,Unmapped.nothing _ _ _ _⟩
  | succ count ih =>
    have ha : address<2 ^ 47 := by omega
    have hnext : (address+4096)/4096=address/4096+1 := by omega
    have hbound' : address+4096+count*4096≤2 ^ 47 := by omega
    have halign' : (address+4096)%4096=0 := by omega
    rw [unmapPages,unmapPages]
    rcases h.unmapPage hr ha halign with ⟨hnone,hm,hn⟩ |
      ⟨p,m',n',hm,hn,h',hkernel,hleaf,hpage⟩
    · simp only [hm,hn]
      obtain ⟨h2,hrest⟩ := ih h hbound' halign'
      rw [hnext] at hrest
      refine ⟨h2,Unmapped.cons (SameKernel.refl m) ?_ ?_ hrest⟩
      · intro r v _ _
        split_ifs with hx
        · rw [hx.1,hx.2,hnone]
        · rfl
      intro r v _ _
      split_ifs with hx
      · rw [hx.1,hx.2,pageAt_of_none hnone]
      · rfl
    · have hdiv : p*4096/4096=p := Nat.mul_div_cancel p (by omega)
      simp only [hm,hn,hdiv]
      obtain ⟨h2,hrest⟩ := ih h' hbound' halign'
      rw [hnext] at hrest
      exact ⟨h2,Unmapped.cons hkernel hleaf hpage hrest⟩

theorem zeroBreak_spec (h : InStep roots m n) (hr : space.pml4Physical/4096 ∈ roots)
    {requested : Nat} (hbound : requested≤2 ^ 47) (rounds address : Nat) :
    InStep roots (zeroBreak space requested rounds address m)
        (zeroBreak space requested rounds address n) ∧
      SameLeaves roots m (zeroBreak space requested rounds address m) ∧
      SameKernel m (zeroBreak space requested rounds address m) := by
  induction rounds generalizing address m n with
  | zero => exact ⟨h,SameLeaves.refl _ _,SameKernel.refl _⟩
  | succ rounds ih =>
    rw [zeroBreak,zeroBreak]
    by_cases hdone : requested≤address
    · simp only [if_pos hdone]
      exact ⟨h,SameLeaves.refl _ _,SameKernel.refl _⟩
    have ha : address<2 ^ 47 := by omega
    simp only [if_neg hdone,vmmSpaceTranslate,h.vmmSpaceQuery_eq hr ha,h.query hr ha]
    cases he : leafAt m (space.pml4Physical/4096) (address/4096) with
    | none =>
      simp only [Option.map_none]
      exact ih h _
    | some e =>
      simp only [Option.map_some,physical_page,physical_offset]
      obtain ⟨h',hleaves⟩ := h.writeBytes hr (vpn_lt ha) he (address%4096)
        (min (4096-address%4096) (requested-address)) (fun _ => 0)
      obtain ⟨h2,hleaves2,hkernel2⟩ := ih h' _
      exact ⟨h2,hleaves.trans hleaves2,(h.writeBytes_kernel hr (vpn_lt ha) he _ _ _).trans hkernel2⟩

/-- Growth clears the bytes it passes and no others when their pages are writable. -/
theorem zeroBreak_bytes (h : InStep roots m n) (hr : space.pml4Physical/4096 ∈ roots)
    {requested rounds : Nat} (hbound : requested≤2 ^ 47) (hrounds : requested≤address+rounds)
    (hw : ∀ {a e}, address≤a → a<requested →
      leafAt m (space.pml4Physical/4096) (a/4096)=some e → hasFlag e vmmWritable=true)
    {r a : Nat} (hr' : r ∈ roots) (ha : a<2 ^ 47) :
    userByte (zeroBreak space requested rounds address m) r a =
      if r=space.pml4Physical/4096 ∧ address≤a ∧ a<requested then
        (userByte m r a).map (fun _ => 0)
      else userByte m r a := by
  induction rounds generalizing address m n with
  | zero => rw [zeroBreak,if_neg (by omega)]
  | succ rounds ih =>
    rw [zeroBreak]
    by_cases hdone : requested≤address
    · rw [if_pos hdone,if_neg (by omega)]
    have hlow : address<2 ^ 47 := by omega
    obtain ⟨amount,hamount⟩ : ∃ k, k=min (4096-address%4096) (requested-address) := ⟨_,rfl⟩
    simp only [if_neg hdone,vmmSpaceTranslate,h.query hr hlow,← hamount]
    have hnext : requested≤address+amount+rounds := by omega
    cases he : leafAt m (space.pml4Physical/4096) (address/4096) with
    | none =>
      simp only [Option.map_none]
      rw [ih h hnext (fun h1 => hw (by omega))]
      by_cases hhere : r=space.pml4Physical/4096 ∧ address≤a ∧ a<address+amount
      · obtain ⟨rfl,h1,h2⟩ := hhere
        have hpage : a/4096=address/4096 := by omega
        rw [if_neg (by omega),if_pos ⟨rfl,h1,by omega⟩,userByte,hpage,pageAt_of_none he]
        rfl
      · exact if_congr (by omega) rfl rfl
    | some e =>
      simp only [Option.map_some,physical_page,physical_offset]
      obtain ⟨h',hleaves⟩ := h.writeBytes hr (vpn_lt hlow) he (address%4096) amount (fun _ => 0)
      rw [ih h' hnext ?_,userByte_writeBytes h hr (vpn_lt hlow) he
        (hw (le_refl _) (by omega) he) (by omega) _ hr' ha]
      · by_cases hhere : r=space.pml4Physical/4096 ∧ address≤a ∧ a<address+amount
        · obtain ⟨rfl,h1,h2⟩ := hhere
          have hpage : a/4096=address/4096 := by omega
          rw [if_neg (by omega),if_pos ⟨rfl,by omega⟩,if_pos ⟨rfl,h1,by omega⟩,userByte,hpage,
            pageAt_of_leaf he]
          rfl
        · rw [if_neg (c := _ ∧ address/4096*4096+address%4096≤a ∧ _) (by omega)]
          exact if_congr (by omega) rfl rfl
      · intro b w h1 h2 hb
        rw [hleaves hr (vpn_lt (by omega))] at hb
        exact hw (by omega) h2 hb

end Loops

section CopyFrom

/-- The loop of `copy_user` that reads from the user. -/
def copyFromUserFrom (space : VmmSpace) (address size : Nat) (m : Machine) :
    Nat → Nat → List UInt8 → Option (List UInt8)
  | 0, _, buffer => some buffer
  | rounds+1, copied, buffer =>
    if size≤copied then some buffer
    else
      let here := address+copied
      match vmmSpaceQuery space here m with
      | none => none
      | some (physical,flags) =>
        if !hasFlag flags vmmUser then none
        else
          let chunk := min (4096-here%4096) (size-copied)
          copyFromUserFrom space address size m rounds (copied+chunk)
            (buffer ++ (List.range chunk).map
              (fun i => readByte (m.mem (physical/4096)) (physical%4096+i)))

/-- `copy_from_user` in the space that is active while the task runs. -/
def copyFromUser (current address size : Nat) (s : Kernel) : Option (List UInt8) :=
  match s.findTask current with
  | none => none
  | some t =>
    if size=0 then some []
    else if !userRangeValid address size then none
    else copyFromUserFrom t.space address size s.machine size 0 []

/-- The loop of `user_range_accessible` over `count` pages. -/
def pagesAccessible (space : VmmSpace) (writable : Bool) (m : Machine) : Nat → Nat → Bool
  | 0, _ => true
  | count+1, page =>
    match vmmSpaceQuery space page m with
    | none => false
    | some (_,flags) =>
      if !hasFlag flags vmmUser || (writable &&
          !(hasFlag flags vmmWritable || hasFlag flags vmmCopyOnWrite)) then false
      else pagesAccessible space writable m count (page+4096)

def userRangeAccessible (current address size : Nat) (writable : Bool) (s : Kernel) : Bool :=
  match s.findTask current with
  | none => false
  | some t =>
    if !userRangeValid address size then false
    else if size=0 then true
    else
      pagesAccessible t.space writable s.machine
        ((address+size-pageFloor address+4095)/4096) (pageFloor address)

def userRangeWritable (current address size : Nat) (s : Kernel) : Bool :=
  userRangeAccessible current address size true s

variable {roots : Finset Nat} {m n : Machine} {space : VmmSpace} {root address size copied : Nat}

/-- The loop reads the bytes the user would, and stops at a byte that is not there. -/
theorem copyFromUserFrom_spec (h : InStep roots m n) (hroot : space.pml4Physical/4096=root)
    (hr : root ∈ roots) (hbound : address+size≤2 ^ 47) {rounds : Nat} {buffer : List UInt8}
    (hrounds : size≤copied+rounds) (hle : copied ≤ size) (hlen : buffer.length=copied)
    (hbuffer : ∀ i, i<copied → userByte m root (address+i)=buffer[i]?) :
    match copyFromUserFrom space address size m rounds copied buffer with
    | some buffer => buffer.length=size ∧
        ∀ i, i<size → userByte m root (address+i)=buffer[i]?
    | none => ∃ i, i<size ∧ userByte m root (address+i)=none := by
  subst hroot
  induction rounds generalizing copied buffer with
  | zero =>
    have hdone : copied=size := by omega
    subst hdone
    exact ⟨hlen,hbuffer⟩
  | succ rounds ih =>
    rw [copyFromUserFrom]
    by_cases hlt : copied<size
    · have ha : address+copied<2 ^ 47 := by omega
      rw [if_neg (by omega)]
      simp only [h.query hr ha]
      cases he : leafAt m (space.pml4Physical/4096) ((address+copied)/4096) with
      | none => exact ⟨copied,hlt,by rw [userByte,pageAt_of_none he]; rfl⟩
      | some e =>
        have hflag := (queryFlags_flags e).1
        rw [h.leaf_user hr (vpn_lt ha) he] at hflag
        simp only [Option.map_some,hflag,Bool.not_true,Bool.false_eq_true,if_false,
          physical_page,physical_offset]
        have hchunk : 0 < min (4096-(address+copied)%4096) (size-copied) := by omega
        have hfit : min (4096-(address+copied)%4096) (size-copied) +
            (address+copied)%4096≤4096 := by omega
        have hsize : copied+min (4096-(address+copied)%4096) (size-copied) ≤ size := by
          omega
        generalize min (4096-(address+copied)%4096) (size-copied)=chunk at *
        apply ih
        · omega
        · omega
        · simp [hlen]
        intro i hi
        by_cases hi' : i<copied
        · rw [List.getElem?_append_left (by omega)]
          exact hbuffer i hi'
        rw [List.getElem?_append_right (by omega),hlen,List.getElem?_map,
          List.getElem?_range (by omega),userByte,
          show (address+i)/4096=(address+copied)/4096 by omega,pageAt_of_leaf he]
        simp only [Option.map_some]
        congr 2
        omega
    · have hdone : copied=size := by omega
      subst hdone
      rw [if_pos (le_refl _)]
      exact ⟨hlen,hbuffer⟩

/-- What the check of `user_range_accessible` says of every page it passed. -/
theorem pagesAccessible_spec (h : InStep roots m n) (hr : space.pml4Physical/4096 ∈ roots)
    {count page : Nat} (hbound : page+count*4096≤2 ^ 47)
    (hok : pagesAccessible space true m count page=true) {v : Nat} (hv : page/4096≤v)
    (hv' : v<page/4096+count) :
    ∃ e, leafAt m (space.pml4Physical/4096) v=some e ∧
      (hasFlag e vmmWritable=true ∨ hasFlag e vmmCopyOnWrite=true) := by
  induction count generalizing page with
  | zero => omega
  | succ count ih =>
    have ha : page<2 ^ 47 := by omega
    rw [pagesAccessible,h.query hr ha] at hok
    cases he : leafAt m (space.pml4Physical/4096) (page/4096) with
    | none => simp [he] at hok
    | some e =>
      obtain ⟨-,hw,hc,-⟩ := queryFlags_flags e
      simp only [he,Option.map_some,hw,hc] at hok
      split_ifs at hok with hbad
      by_cases hhere : v=page/4096
      · subst hhere
        refine ⟨e,he,?_⟩
        cases hwe : hasFlag e vmmWritable with
        | true => exact Or.inl rfl
        | false =>
          cases hce : hasFlag e vmmCopyOnWrite with
          | true => exact Or.inr rfl
          | false => simp [hwe,hce] at hbad
      · have hnext : (page+4096)/4096=page/4096+1 := by omega
        exact ih (by omega) hok (by omega) (by omega)

end CopyFrom

end ConeOS.Process
