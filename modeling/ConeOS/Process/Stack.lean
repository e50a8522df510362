import ConeOS.Memory.View
import ConeOS.Process.ImageSpec

namespace ConeOS.Process

open ConeOS.Library ConeOS.Memory List

/-- The bytes the strings take with their terminators. -/
def stringBytes : List (List UInt8) → Nat
  | [] => 0
  | a :: as => a.length+1+stringBytes as

/-- The strings stand one after the other from `start` to the end of the page. -/
def Laid (b : Block) : List (List UInt8) → Nat → Prop
  | [], start => start=4096
  | a :: as, start => (∀ i, i<a.length → readByte b (start+i)=a.getD i 0) ∧
      readByte b (start+a.length)=0 ∧ Laid b as (start+a.length+1)

/-- Where the user finds the strings. -/
def stringAddresses : List (List UInt8) → Nat → List Nat
  | [], _ => []
  | a :: as, start => (userStackAddress+start) :: stringAddresses as (start+a.length+1)

/-- The stack page of a new process: the strings at its end, and the vector of their addresses
with its null at `cursor`, below them. -/
structure StackLayout (b : Block) (arguments : List (List UInt8)) (cursor : Nat) : Prop where
  aligned : cursor%8=0
  room : cursor+8*(arguments.length+1)+stringBytes arguments≤4096
  laid : Laid b arguments (4096-stringBytes arguments)
  vector : ∀ i, i<arguments.length → b (cursor/8+i) =
    BitVec.ofNat 64 ((stringAddresses arguments (4096-stringBytes arguments)).getD i 0)
  null : b (cursor/8+arguments.length)=0

section Strings

variable {b b' : Block} {arguments : List (List UInt8)} {start : Nat}

theorem stringBytes_append (as bs : List (List UInt8)) :
    stringBytes (as ++ bs)=stringBytes as+stringBytes bs := by
  induction as with
  | nil => simp [stringBytes]
  | cons a as ih => simp only [cons_append,stringBytes,ih]; omega

theorem stringBytes_reverse (as : List (List UInt8)) :
    stringBytes as.reverse=stringBytes as := by
  induction as with
  | nil => rfl
  | cons a as ih =>
    simp only [reverse_cons,stringBytes_append,ih,stringBytes]
    omega

theorem Laid.start_add (h : Laid b arguments start) : start+stringBytes arguments=4096 := by
  induction arguments generalizing start with
  | nil => exact h
  | cons a as ih =>
    have hrest := ih h.2.2
    rw [stringBytes]
    omega

theorem Laid.congr (h : Laid b arguments start)
    (hb : ∀ o, start≤o → readByte b' o=readByte b o) : Laid b' arguments start := by
  induction arguments generalizing start with
  | nil => exact h
  | cons a as ih =>
    refine ⟨?_,?_,ih h.2.2 (fun o ho => hb o (by omega))⟩
    · intro i hi
      rw [hb _ (by omega),h.1 i hi]
    · rw [hb _ (by omega),h.2.1]

theorem length_stringAddresses (arguments : List (List UInt8)) (start : Nat) :
    (stringAddresses arguments start).length=arguments.length := by
  induction arguments generalizing start with
  | nil => rfl
  | cons a as ih => simp [stringAddresses,ih]

theorem Laid.push (h : Laid b arguments start) {a : List UInt8} (hfit : a.length+1 ≤ start) :
    Laid (writeBytes (start-(a.length+1)) (a.length+1) (fun i => a.getD i 0) b)
      (a :: arguments) (start-(a.length+1)) := by
  refine ⟨?_,?_,?_⟩
  · intro i hi
    rw [readByte_writeBytes,if_pos (by omega),Nat.add_sub_cancel_left]
  · rw [readByte_writeBytes,if_pos (by omega),Nat.add_sub_cancel_left]
    simp
  · have hnext : start-(a.length+1)+a.length+1=start := by omega
    rw [hnext]
    apply h.congr
    intro o ho
    rw [readByte_writeBytes,if_neg (by omega)]

end Strings

section Place

variable {stack : Nat} {m m' : Machine}

/-- Only one page is written. -/
structure OnlyPage (page : Nat) (m m' : Machine) : Prop where
  mem : ∀ q, q≠page → m'.mem q=m.mem q
  pmm : m'.pmm=m.pmm
  kernelRoot : m'.kernelRoot=m.kernelRoot
  kernelPages : m'.kernelPages=m.kernelPages

theorem OnlyPage.refl (page : Nat) (m : Machine) : OnlyPage page m m :=
  ⟨fun _ _ => rfl,rfl,rfl,rfl⟩

theorem OnlyPage.trans {page : Nat} {m'' : Machine} (h : OnlyPage page m m')
    (h' : OnlyPage page m' m'') : OnlyPage page m m'' :=
  ⟨fun q hq => (h'.mem q hq).trans (h.mem q hq),h'.pmm.trans h.pmm,
    h'.kernelRoot.trans h.kernelRoot,h'.kernelPages.trans h.kernelPages⟩

theorem OnlyPage.setPage (page : Nat) (b : Block) (m : Machine) :
    OnlyPage page m (m.setPage page b) :=
  ⟨fun _ hq => setPage_mem_of_ne m b hq,rfl,rfl,rfl⟩

theorem placeArguments_spec (rest : List (List UInt8)) {done : List (List UInt8)} {cursor : Nat}
    (hlaid : Laid (m.mem stack) done cursor) :
    (stringBytes rest≤cursor →
      ∃ m', placeArguments stack rest cursor (stringAddresses done cursor) m =
          (some (cursor-stringBytes rest, stringAddresses (rest.reverse ++ done)
            (cursor-stringBytes rest)), m') ∧ OnlyPage stack m m' ∧
        Laid (m'.mem stack) (rest.reverse ++ done) (cursor-stringBytes rest)) ∧
    (cursor<stringBytes rest →
      ∃ m', placeArguments stack rest cursor (stringAddresses done cursor) m=(none,m') ∧
        OnlyPage stack m m') := by
  induction rest generalizing done cursor m with
  | nil =>
    refine ⟨fun _ => ⟨m,rfl,OnlyPage.refl _ _,hlaid⟩,fun h => ?_⟩
    simp [stringBytes] at h
  | cons a as ih =>
    have hcursor := hlaid.start_add
    rw [placeArguments]
    by_cases hfit : a.length+1≤cursor
    · have hmin : min a.length 4096=a.length := by omega
      simp only [hmin,if_neg (by omega : ¬ (a.length=4096 ∨ a.length+1 > cursor))]
      have hnext : cursor-(a.length+1)+a.length+1=cursor := by omega
      have hpush : Laid ((m.writeBytes stack (cursor-(a.length+1)) (a.length+1)
          (fun i => a.getD i 0)).mem stack) (a :: done) (cursor-(a.length+1)) := by
        rw [Machine.writeBytes,setPage_mem,if_pos rfl]
        exact hlaid.push hfit
      have hpointers : (userStackAddress+(cursor-(a.length+1))) ::
          stringAddresses done cursor =
            stringAddresses (a :: done) (cursor-(a.length+1)) := by
        rw [stringAddresses,hnext]
      have honly := OnlyPage.setPage stack
        (writeBytes (cursor-(a.length+1)) (a.length+1) (fun i => a.getD i 0) (m.mem stack)) m
      obtain ⟨hok,hfail⟩ := ih hpush
      rw [hpointers]
      simp only [stringBytes,reverse_cons,append_assoc,singleton_append]
      constructor
      · intro hall
        obtain ⟨m',hm',honly',hlaid'⟩ := hok (by omega)
        rw [Nat.sub_sub] at hm' hlaid'
        exact ⟨m',hm',honly.trans honly',hlaid'⟩
      · intro hshort
        obtain ⟨m',hm',honly'⟩ := hfail (by omega)
        exact ⟨m',hm',honly.trans honly'⟩
    · have hbad : min a.length 4096=4096 ∨ min a.length 4096+1 > cursor := by omega
      simp only [if_pos hbad]
      refine ⟨fun h => ?_,fun _ => ⟨m,rfl,OnlyPage.refl _ _⟩⟩
      rw [stringBytes] at h
      omega

theorem placeVector_spec (stack : Nat) (m : Machine) (pointers : List Nat) (word : Nat) :
    OnlyPage stack m (placeVector stack pointers word m) ∧
      ∀ i, (placeVector stack pointers word m).mem stack i =
        if i<word then m.mem stack i
        else if i<word+pointers.length then BitVec.ofNat 64 (pointers.getD (i-word) 0)
        else if i=word+pointers.length then 0 else m.mem stack i := by
  induction pointers generalizing word m with
  | nil =>
    refine ⟨OnlyPage.setPage _ _ _,fun i => ?_⟩
    rw [placeVector,Machine.setEntry,setPage_mem,if_pos rfl]
    simp only [length_nil,Nat.add_zero]
    split_ifs <;> first | rfl | omega
  | cons p ps ih =>
    obtain ⟨honly,hmem⟩ := ih (m.setEntry stack word (BitVec.ofNat 64 p)) (word+1)
    refine ⟨(OnlyPage.setPage _ _ _).trans honly,fun i => ?_⟩
    rw [placeVector,hmem,Machine.setEntry,setPage_mem,if_pos rfl]
    simp only [length_cons]
    by_cases hlt : i<word
    · rw [if_pos (by omega),if_neg (by omega),if_pos hlt]
    by_cases heq : i=word
    · subst heq
      rw [if_pos (by omega),if_pos rfl,if_neg hlt,if_pos (by omega)]
      simp
    obtain ⟨k,rfl⟩ : ∃ k, i=word+1+k := ⟨i-(word+1),by omega⟩
    have h1 : word+1+k-(word+1)=k := by omega
    have h2 : word+1+k-word=k+1 := by omega
    simp only [h1,h2,getD_cons_succ,heq,if_false]
    split_ifs <;> first | rfl | omega

end Place

/-- `create_process_image` puts the arguments on the stack page if they fit, with the vector
and its alignment. -/
theorem buildStack_spec (stack : Nat) (m : Machine) (arguments : List (List UInt8)) :
    ∃ result m', buildStack stack arguments m=(result,m') ∧ OnlyPage stack m m' ∧
      ((arguments.length+1)*8≤(4096-stringBytes arguments)/8*8 →
        stringBytes arguments≤4096 →
        result=some ((4096-stringBytes arguments)/8*8-(arguments.length+1)*8)) ∧
      ∀ cursor, result=some cursor → StackLayout (m'.mem stack) arguments cursor := by
  have hempty : Laid (m.mem stack) [] 4096 := rfl
  obtain ⟨hok,hfail⟩ := placeArguments_spec arguments.reverse hempty
  rw [stringBytes_reverse] at hok hfail
  rw [reverse_reverse,append_nil] at hok
  rw [buildStack]
  by_cases hroom : stringBytes arguments≤4096
  · obtain ⟨m1,hm1,honly1,hlaid1⟩ := hok hroom
    rw [stringAddresses] at hm1
    rw [hm1]
    dsimp only
    by_cases hvector : (arguments.length+1)*8 > (4096-stringBytes arguments)/8*8
    · rw [if_pos hvector]
      exact ⟨none,m1,rfl,honly1,fun h _ => by omega,fun _ hx => by cases hx⟩
    rw [if_neg hvector]
    obtain ⟨honly2,hmem⟩ := placeVector_spec stack m1
      (stringAddresses arguments (4096-stringBytes arguments))
      (((4096-stringBytes arguments)/8*8-(arguments.length+1)*8)/8)
    refine ⟨_,_,rfl,honly1.trans honly2,fun _ _ => rfl,?_⟩
    intro cursor hcursor
    cases hcursor
    rw [length_stringAddresses] at hmem
    generalize hc : (4096-stringBytes arguments)/8*8-(arguments.length+1)*8=cursor
      at *
    refine ⟨by omega,by omega,?_,?_,?_⟩
    · apply hlaid1.congr
      intro o ho
      rw [readByte,readByte,hmem,if_neg (by omega),if_neg (by omega),if_neg (by omega)]
    · intro i hi
      rw [hmem,if_neg (by omega),if_pos (by omega),Nat.add_sub_cancel_left]
    · rw [hmem,if_neg (by omega),if_neg (by omega),if_pos rfl]
  · obtain ⟨m1,hm1,honly1⟩ := hfail (by omega)
    rw [stringAddresses] at hm1
    rw [hm1]
    exact ⟨none,m1,rfl,honly1,fun _ h => absurd h hroom,fun _ hx => by cases hx⟩

section Loading

variable {g : Ghost} {r : Nat} {m₀ m n : Machine} {label : Nat → Option Label}
  {dirty : Nat → Prop} {v : Nat} {e : BitVec 64}

theorem placeArguments_loading (hr : r ∈ g.roots) (hv : v<userPages)
    (h : Loading g r m₀ label dirty m n) (he : leafAt m r v=some e)
    (arguments : List (List UInt8)) (cursor : Nat) (pointers : List Nat) :
    ∃ result m' n', placeArguments (addressPage e) arguments cursor pointers m=(result,m') ∧
      placeArguments (addressPage e) arguments cursor pointers n=(result,n') ∧
      Loading g r m₀ label dirty m' n' ∧
      ∀ {w}, w<userPages → leafAt m' r w=leafAt m r w := by
  induction arguments generalizing m n cursor pointers with
  | nil => exact ⟨_,m,n,rfl,rfl,h,fun _ => rfl⟩
  | cons a as ih =>
    rw [placeArguments,placeArguments]
    split_ifs with hbad
    · exact ⟨none,m,n,rfl,rfl,h,fun _ => rfl⟩
    have hleaf {w : Nat} (hw : w<userPages) (b : Block) :
        leafAt (m.setPage (addressPage e) b) r w=leafAt m r w :=
      h.twin.inv.leafAt_setPage (h.twin.leaf_page hr hv he).2.2.1 hr hw b
    obtain ⟨result,m',n',hm,hn,h',hleaf'⟩ := ih
      (h.writeBytes hr hv he (cursor-(min a.length 4096+1)) (min a.length 4096+1)
        (fun i => a.getD i 0)) ((hleaf hv _).trans he) _ _
    exact ⟨result,m',n',hm,hn,h',fun hw => (hleaf' hw).trans (hleaf hw _)⟩

theorem placeVector_loading (hr : r ∈ g.roots) (hv : v<userPages)
    (h : Loading g r m₀ label dirty m n) (he : leafAt m r v=some e) (pointers : List Nat)
    (word : Nat) :
    Loading g r m₀ label dirty (placeVector (addressPage e) pointers word m)
        (placeVector (addressPage e) pointers word n) ∧
      ∀ {w}, w<userPages →
        leafAt (placeVector (addressPage e) pointers word m) r w=leafAt m r w := by
  have hleaf {w : Nat} (hw : w<userPages) (b : Block) :
      leafAt (m.setPage (addressPage e) b) r w=leafAt m r w :=
    h.twin.inv.leafAt_setPage (h.twin.leaf_page hr hv he).2.2.1 hr hw b
  induction pointers generalizing m n word with
  | nil => exact ⟨h.setEntry hr hv he word 0,fun hw => hleaf hw _⟩
  | cons p ps ih =>
    have h1 := h.setEntry hr hv he word (BitVec.ofNat 64 p)
    have he1 : leafAt (m.setEntry (addressPage e) word (BitVec.ofNat 64 p)) r v=some e :=
      (hleaf hv _).trans he
    obtain ⟨h',hleaf'⟩ := ih h1 he1 (word+1) (fun hw b =>
      h1.twin.inv.leafAt_setPage (h1.twin.leaf_page hr hv he1).2.2.1 hr hw b)
    exact ⟨h',fun hw => (hleaf' hw).trans (hleaf hw _)⟩

theorem buildStack_loading (hr : r ∈ g.roots) (hv : v<userPages)
    (h : Loading g r m₀ label dirty m n) (he : leafAt m r v=some e)
    (arguments : List (List UInt8)) :
    ∃ result m' n', buildStack (addressPage e) arguments m=(result,m') ∧
      buildStack (addressPage e) arguments n=(result,n') ∧
      Loading g r m₀ label dirty m' n' ∧
      ∀ {w}, w<userPages → leafAt m' r w=leafAt m r w := by
  rw [buildStack,buildStack]
  obtain ⟨result,m1,n1,hm1,hn1,h1,hleaf1⟩ :=
    placeArguments_loading hr hv h he arguments.reverse 4096 []
  rw [hm1,hn1]
  cases result with
  | none => exact ⟨none,m1,n1,rfl,rfl,h1,hleaf1⟩
  | some x =>
    obtain ⟨cursor,pointers⟩ := x
    dsimp only
    split_ifs with hbig
    · exact ⟨none,m1,n1,rfl,rfl,h1,hleaf1⟩
    · obtain ⟨h2,hleaf2⟩ := placeVector_loading hr hv h1 ((hleaf1 hv).trans he) pointers
        ((cursor/8*8-(arguments.length+1)*8)/8)
      exact ⟨_,_,_,rfl,rfl,h2,fun hw => (hleaf2 hw).trans (hleaf1 hw)⟩

/-- What `create_process_image` has put into the space `r`. -/
structure ImageBuilt (file : List UInt8) (arguments : List (List UInt8)) (r : Nat)
    (m m' : Machine) (image : ProcessImage) : Prop where
  elf : ∃ m1 elf, ElfLoaded file (processMemoryLimitPages-1) r m m1 elf ∧ Extends r m1 m' ∧
    image.entry=elf.entryPoint ∧ image.heapBase=alignUpPage elf.imageEnd ∧
    image.committedPages=elf.mappedPages+1 ∧
    Adds r {userStackAddress/4096} m1 m'
  stack : ∃ e cursor, leafAt m' r (userStackAddress/4096)=some e ∧
    LeafFlags e true true false true ∧ StackLayout (m'.mem (addressPage e)) arguments cursor ∧
    image.stackPointer=userStackAddress+cursor ∧ image.argv=userStackAddress+cursor
  argc : image.argc=arguments.length

/-- Nothing in a new image waits for a copy. -/
theorem ImageBuilt.cow {file : List UInt8} {arguments : List (List UInt8)} {m' : Machine}
    {image : ProcessImage} (h : ImageBuilt file arguments r m m' image)
    (hnone : ∀ {v}, v<userPages → leafAt m r v=none) (hv : v<userPages)
    (he : leafAt m' r v=some e) : hasFlag e vmmCopyOnWrite=false := by
  obtain ⟨m1,elf,helf,hext,-,-,-,hadds⟩ := h.elf
  obtain ⟨w,cursor,hw,hflags,-⟩ := h.stack
  have hmapped := (hadds.mapped hv).mp (by rw [he]; rfl)
  rw [helf.adds.mapped hv,hnone hv,Finset.mem_singleton] at hmapped
  rcases hmapped with (hx | hpage) | hstack
  · cases hx
  · obtain ⟨program,hp,htype,hin⟩ := mem_programPages.mp hpage
    obtain ⟨-,u,hu,huflags,-⟩ := ((helf.segments program hp htype).2.extends hext) hin
    rw [he] at hu
    cases hu
    exact huflags.cow
  · rw [hstack,hw] at he
    cases he
    exact hflags.cow

theorem stackFlags_flags :
    hasFlag (vmmUser ||| vmmWritable ||| vmmNoExecute) vmmUser=true ∧
      hasFlag (vmmUser ||| vmmWritable ||| vmmNoExecute) vmmWritable=true ∧
      hasFlag (vmmUser ||| vmmWritable ||| vmmNoExecute) vmmCopyOnWrite=false ∧
      hasFlag (vmmUser ||| vmmWritable ||| vmmNoExecute) vmmNoExecute=true := by
  decide

theorem buildStack_extends (hr : r ∈ g.roots) (hv : v<userPages)
    (h : Loading g r m₀ label dirty m n) (he : leafAt m r v=some e) {m' : Machine}
    (honly : OnlyPage (addressPage e) m m')
    (hleaf : ∀ {w}, w<userPages → leafAt m' r w=leafAt m r w) {m1 : Machine}
    (hext : Extends r m1 m) (hnone : leafAt m1 r v=none) : Extends r m1 m' := by
  intro w u hw hu
  obtain ⟨hu',hmem⟩ := hext hw hu
  refine ⟨(hleaf hw).trans hu',?_⟩
  rw [honly.mem _ ?_,hmem]
  intro hpage
  obtain ⟨-,rfl⟩ := h.own hv he hr hw hu' hpage
  rw [hnone] at hu
  cases hu

theorem fillImage_loading (space : VmmSpace) (hr : r ∈ g.roots)
    (hroot : space.pml4Physical/4096=r) (file : List UInt8)
    (arguments : List (List UInt8)) (h : Loading g r m₀ label (fun _ => False) m n) :
    ∃ result m' n' label' dirty', fillImage space file arguments m=(result,m') ∧
      fillImage space file arguments n=(result,n') ∧
      Loading g r m₀ label' dirty' m' n' ∧
      ∀ image, result = .ok image → image.space=space ∧
        ImageBuilt file arguments r m m' image ∧
        (m=n → ∀ q, dirty' q → n'.mem q=m'.mem q) := by
  obtain ⟨huser,hwritable,hcow,hnx⟩ := stackFlags_flags
  generalize hresult : fillImage space file arguments n=final
  have hsame : m=n → fillImage space file arguments m=final := by
    intro hmn
    rw [hmn,hresult]
  revert hresult hsame
  rw [fillImage,fillImage]
  obtain ⟨result,m1,n1,label1,hm1,hn1,h1,helf⟩ :=
    elfLoad_loading hr hroot file (processMemoryLimitPages-1) h
  rw [hm1,hn1]
  cases result with
  | error x =>
    intro hresult _
    subst hresult
    exact ⟨.error x,m1,n1,label1,_,rfl,rfl,h1,fun _ hx => by cases hx⟩
  | ok elf =>
    dsimp only [Machine.allocUserPage]
    rcases h1.twin.alloc pmmKernelReservePages with ⟨hm,hn⟩ | ⟨p,hfree,-,hm,hn,t2⟩
    · rw [hm,hn]
      intro hresult _
      subst hresult
      exact ⟨.error .outOfMemory,m1,n1,label1,_,rfl,rfl,h1,fun _ hx => by cases hx⟩
    rw [hm,hn]
    obtain ⟨ok,m3,n3,label3,hm3,hn3,hok,hfail⟩ := h1.mapPage hr hroot huser hfree t2
      (h1.twin.keeps_take r hfree) (Function.update_self ..)
      (fun _ _ => leafAt_mem rfl _ _) (fun q hq => hq) userStackAddress
    simp only [hm3,hn3]
    cases ok with
    | false =>
      intro hresult _
      subst hresult
      exact ⟨.error .outOfMemory,_,_,label3,_,rfl,rfl,hfail rfl,fun _ hx => by cases hx⟩
    | true =>
      obtain ⟨h3,ha,hnone,hleaf,hpage,-,hext,hflags⟩ := hok rfl
      rw [hwritable,hcow,hnx] at hflags
      have hv : userStackAddress/4096<userPages := vpn_lt ha
      have he : leafAt m3 r (userStackAddress/4096)=some (leafEntry p (vmmUser |||
          vmmWritable ||| vmmNoExecute)) := by
        rw [hleaf hv,if_pos rfl]
      obtain ⟨result,m4,n4,hm4,hn4,h4,hleaf4⟩ := buildStack_loading hr hv h3 he arguments
      obtain ⟨_,_,hspec,honly,-,hlayout⟩ := buildStack_spec
        (addressPage (leafEntry p (vmmUser ||| vmmWritable ||| vmmNoExecute))) m3 arguments
      rw [hm4] at hspec
      cases hspec
      rw [hpage] at hm4 hn4
      simp only [hm4,hn4]
      cases result with
      | none =>
        intro hresult _
        subst hresult
        exact ⟨.error .invalid,m4,n4,label3,_,rfl,rfl,h4,fun _ hx => by cases hx⟩
      | some cursor =>
        intro hresult hsame
        subst hresult
        refine ⟨_,m4,n4,label3,_,rfl,rfl,h4,?_⟩
        intro image himage
        cases himage
        have hadds := Adds.one hv hnone hleaf
        refine ⟨rfl,⟨⟨m1,elf,helf elf rfl,buildStack_extends hr hv h3 he honly hleaf4 hext
          hnone,rfl,rfl,rfl,hadds.fresh,?_⟩,⟨_,cursor,(hleaf4 hv).trans he,hflags,
          hlayout cursor rfl,rfl,rfl⟩,rfl⟩,?_⟩
        · intro w hw
          rw [hleaf4 hw]
          exact hadds.mapped hw
        intro hclean q _
        have hmn : m4=n4 := congrArg Prod.snd (hsame hclean)
        rw [hmn]

end Loading

section Create

variable {roots : Finset Nat} {m n : Machine}

theorem loading_start {c : Nat} {label : Nat → Option Label}
    (t : Twin ⟨insert c roots,label,kernelHeld m,fun _ => False⟩ m n)
    (hnone : ∀ {v}, v<userPages → leafAt m c v=none) :
    Loading ⟨insert c roots,label,kernelHeld m,fun _ => False⟩ c m label
      (fun _ => False) m n := by
  refine ⟨t,rfl,fun _ _ _ => rfl,fun _ _ _ _ => rfl,fun _ _ _ => rfl,fun _ => rfl,?_,
    fun hf => hf.elim⟩
  intro v e s v' w hv he
  rw [hnone hv] at he
  cases he

/-- `create_process_image` makes one new space or leaves everything as it was. -/
theorem createProcessImage_inStep (h : InStep roots m n) (work : KernelWork)
    (file : Option (List UInt8)) (arguments : List (List UInt8))
    (hclean : m=n) :
    ∃ result m' n', createProcessImage work file arguments m=(result,m') ∧
      createProcessImage work file arguments n=(result,n') ∧
      match result with
      | .error _ => InStep roots m' n' ∧ SameLeaves roots m m' ∧ Restored roots m m'
      | .ok image => ∃ c m1 bytes, c ∉ roots ∧ file=some bytes ∧ image.space=⟨c*4096,false⟩ ∧
          InStep (insert c roots) m' n' ∧ SameLeaves roots m m' ∧ Restored roots m m' ∧
          (∀ {v}, v<userPages → leafAt m1 c v=none) ∧
          ImageBuilt bytes arguments c m1 m' image := by
  obtain ⟨label,t,hapart⟩ := h
  rw [createProcessImage,createProcessImage]
  by_cases hmany : arguments.length > processMaxArguments
  · rw [if_pos hmany,if_pos hmany]
    exact ⟨_,m,n,rfl,rfl,⟨label,t,hapart⟩,SameLeaves.refl _ _,Restored.refl _ _⟩
  rw [if_neg hmany,if_neg hmany]
  have hcreate := Twin.vmmSpaceCreate (g := ⟨roots,label,kernelHeld m,fun _ => False⟩) work t
  obtain ⟨m1,n1,⟨hm1,hn1,t1,hleaves1,hkeeps1⟩ |
    ⟨c,label1,hm1,hn1,hnew,t1,hleaves1,hnone,hkeeps1⟩⟩ := hcreate
  · simp only [hm1,hn1]
    exact ⟨_,m1,n1,rfl,rfl,⟨label,t1,hapart.of_leaves hleaves1⟩,hleaves1,
      Restored.of_leaves ((hkeeps1.contents t).pages hleaves1) hleaves1 (hkeeps1.sameTables t)
        hkeeps1.map.managed⟩
  have hcreated : m=n → m1=n1 := by
    intro hmn
    have hsame := hm1
    rw [hmn,hn1] at hsame
    exact (congrArg Prod.snd hsame).symm
  simp only [hm1,hn1]
  have hdiv : c*4096/4096=c := Nat.mul_div_cancel _ (by omega)
  have hrestored1 : Restored roots m m1 :=
    Restored.of_leaves ((hkeeps1.contents t).pages hleaves1) hleaves1 (hkeeps1.sameTables t)
      hkeeps1.map.managed
  have hapart1 : Apart roots m1 := hapart.of_leaves hleaves1
  have hnew : c ∉ roots := hnew
  have hstart := loading_start t1 hnone
  -- whatever was loaded, destroying the new space leaves the rest as it was
  have hundo {label' : Nat → Option Label} {dirty' : Nat → Prop} {m2 n2 : Machine}
      (h2 : Loading ⟨insert c roots,label1,kernelHeld m1,fun _ => False⟩ c m1 label' dirty'
        m2 n2) : InStep roots (vmmSpaceDestroy ⟨c*4096,false⟩ m2)
          (vmmSpaceDestroy ⟨c*4096,false⟩ n2) ∧
        SameLeaves roots m (vmmSpaceDestroy ⟨c*4096,false⟩ m2) ∧
        Restored roots m (vmmSpaceDestroy ⟨c*4096,false⟩ m2) := by
    obtain ⟨h3,hleaves3,hpages3,htables3,hmanaged3⟩ :=
      h2.destroy hnew hapart1 ⟨c*4096,false⟩ hdiv rfl
    exact ⟨h3,hleaves1.trans hleaves3,
      hrestored1.trans (Restored.of_leaves hpages3 hleaves3 htables3 hmanaged3)⟩
  cases file with
  | none => exact ⟨_,_,_,rfl,rfl,hundo hstart⟩
  | some bytes =>
    obtain ⟨result,m2,n2,label2,dirty2,hm2,hn2,h2,hok⟩ :=
      fillImage_loading ⟨c*4096,false⟩ (Finset.mem_insert_self c roots) hdiv bytes arguments
        hstart
    simp only [hm2,hn2]
    cases result with
    | error x => exact ⟨_,_,_,rfl,rfl,hundo h2⟩
    | ok image =>
      obtain ⟨hspace,hbuilt,hdirty⟩ := hok image rfl
      obtain ⟨hleaves2,hpages2,htables2,hmanaged2⟩ := h2.sameLeaves hnew
      refine ⟨.ok image,m2,n2,rfl,rfl,c,m1,bytes,hnew,rfl,hspace,?_,hleaves1.trans hleaves2,
        hrestored1.trans (Restored.of_leaves hpages2 hleaves2 htables2 hmanaged2),hnone,hbuilt⟩
      exact h2.inStep hnew hapart1 (hdirty (hcreated hclean))

end Create

end ConeOS.Process
