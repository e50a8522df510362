import ConeOS.Process.Lifecycle

namespace ConeOS.Process

open ConeOS.Library ConeOS.Memory Kernel List

/-- A kernel after `copy_to_user` of `bytes` to `address` of the task `t`. -/
structure CopiedTo (s s' : Kernel) (t : Task) (address : Nat) (bytes : List UInt8) : Prop where
  records : s'=s.setMachine s'.machine
  written : ∀ i, i<bytes.length → visibleIn t.space s'.machine (address+i)=bytes[i]?
  others : ∀ u ∈ s.tasks, u.ownsSpace=true → ∀ a,
    ¬ (u=t ∧ address≤a ∧ a<address+bytes.length) →
      visibleIn u.space s'.machine a=visibleIn u.space s.machine a
  kernel : SameKernel s.machine s'.machine
  touched : ∀ a, address≤a → a<address+bytes.length → ∃ physical flags,
    vmmSpaceQuery t.space a s.machine=some (physical,flags) ∧ hasFlag flags vmmUser=true ∧
      (hasFlag flags vmmWritable=true ∨ hasFlag flags vmmCopyOnWrite=true)

section Copy

variable {s : Kernel} {current address : Nat} {t : Task} {bytes : List UInt8} {size : Nat}
  {buffer : List UInt8}

theorem copyToUser_invalid (ht : s.findTask current=some t) (hsome : bytes≠[])
    (hout : 2 ^ 47≤address ∨ 2 ^ 47<address+bytes.length) :
    copyToUser current address bytes s=(0,false,s) := by
  have hinvalid : userRangeValid address bytes.length=false := by
    rw [← Bool.not_eq_true,userRangeValid_iff]
    omega
  rw [copyToUser,ht]
  simp only [if_neg hsome,hinvalid,Bool.not_false,if_true]

theorem copyFromUser_invalid (ht : s.findTask current=some t) (hsome : 0<size)
    (hout : 2 ^ 47≤address ∨ 2 ^ 47<address+size) :
    copyFromUser current address size s=none := by
  have hinvalid : userRangeValid address size=false := by
    rw [← Bool.not_eq_true,userRangeValid_iff]
    omega
  rw [copyFromUser,ht]
  simp only [if_neg (by omega : ¬ size=0),hinvalid,Bool.not_false,if_true]

/-- `copy_to_user` on a range of the lower half is its loop. -/
theorem copyToUser_spec (hs : WellKept s) (ht : s.findTask current=some t)
    (ho : t.ownsSpace=true) (hvalid : userRangeValid address bytes.length=true) :
    ∃ k done m', copyToUser current address bytes s=(k,done,s.setMachine m') ∧
      CopyState (ownedRoots s.tasks).toFinset (t.space.pml4Physical/4096) address bytes
        s.machine k m' m' ∧ (done=true → k=bytes.length) ∧
      (done=false → k<bytes.length ∧
        ∀ e, leafAt m' (t.space.pml4Physical/4096) ((address+k)/4096)=some e →
          (hasFlag e vmmWritable=true ∨ hasFlag e vmmCopyOnWrite=true) →
          ¬ (hasFlag e vmmWritable=true ∧ hasFlag e vmmCopyOnWrite=true) →
          m'.allocUserPage=(none,m')) := by
  have hr := Paired.root_mem (findTask_some ht).1 ho
  have hstart : CopyState (ownedRoots s.tasks).toFinset (t.space.pml4Physical/4096) address
      bytes s.machine 0 s.machine s.machine := CopyState.start hs.paired.inStep
  rw [copyToUser,ht]
  by_cases hempty : bytes=[]
  · subst hempty
    exact ⟨0,true,s.machine,rfl,hstart,fun _ => rfl,fun hx => by cases hx⟩
  have hroot : t.space.pml4Physical/4096=t.space.pml4Physical/4096 := rfl
  obtain ⟨k,done,m',n',hm,hn,hcopy,hall,hstop⟩ := copyToUserFrom_spec hroot hr
    ((userRangeValid_iff _ _).mp hvalid).2 (le_of_eq (Nat.zero_add bytes.length).symm) hstart
  have hsame : m'=n' := by
    rw [hm] at hn
    exact congrArg (fun x => x.2.2) hn
  subst hsame
  simp only [if_neg hempty,hvalid,Bool.not_true,Bool.false_eq_true,if_false,hm]
  exact ⟨k,done,m',rfl,hcopy,hall,hstop⟩

theorem copyToUser_copied (hs : WellKept s) (ht : s.findTask current=some t)
    (ho : t.ownsSpace=true) {k : Nat} {s' : Kernel}
    (h : copyToUser current address bytes s=(k,true,s')) :
    CopiedTo s s' t address bytes := by
  obtain ⟨hmem,-⟩ := findTask_some ht
  by_cases hempty : bytes=[]
  · subst hempty
    rw [copyToUser,ht] at h
    cases h
    refine ⟨rfl,fun i hi => absurd hi (Nat.not_lt_zero i),fun _ _ _ _ _ => rfl,
      SameKernel.refl _,fun a h1 h2 => ?_⟩
    rw [length_nil] at h2
    omega
  have hvalid : userRangeValid address bytes.length=true := by
    by_contra hx
    rw [userRangeValid_iff] at hx
    rw [copyToUser_invalid ht hempty (by omega)] at h
    cases h
  obtain ⟨hlow,hbound⟩ := (userRangeValid_iff _ _).mp hvalid
  obtain ⟨k',done,m',hcall,hcopy,hall,-⟩ := copyToUser_spec hs ht ho hvalid
  rw [hcall] at h
  cases h
  have hk := hall rfl
  subst hk
  have hin := hs.paired.inStep
  have hr := Paired.root_mem hmem ho
  refine ⟨rfl,?_,?_,hcopy.kernel,?_⟩
  · intro i hi
    rw [setMachine_machine,visibleIn_eq hcopy.inStep hr,if_pos (by omega),hcopy.byte hr (by omega),
      if_pos ⟨rfl,by omega,by omega⟩,Nat.add_sub_cancel_left,getD_eq_getElem?_getD,
      List.getElem?_eq_getElem hi]
    rfl
  · intro u hu huo a hout
    have hru := Paired.root_mem hu huo
    rw [setMachine_machine,visibleIn_eq hcopy.inStep hru,visibleIn_eq hin hru]
    split_ifs with ha
    · rw [hcopy.byte hru ha,if_neg]
      intro hx
      exact hout ⟨ownedRoots_inj hs.paired.nodup hmem hu ho huo hx.1,hx.2⟩
    · rfl
  intro a h1 h2
  obtain ⟨e,he,hflags⟩ := hcopy.touched h1 h2
  have ha : a<2 ^ 47 := by omega
  obtain ⟨hu,hw,hc,-⟩ := queryFlags_flags e
  refine ⟨_,_,by rw [hin.query hr ha,he]; rfl,?_,?_⟩
  · rw [hu,hin.leaf_user hr (vpn_lt ha) he]
  · rw [hw,hc]
    exact hflags

theorem copyFromUser_read (hs : WellKept s) (ht : s.findTask current=some t)
    (ho : t.ownsSpace=true)
    (h : copyFromUser current address size s=some buffer) :
    buffer.length=size ∧
      ∀ i, i<size → visibleIn t.space s.machine (address+i)=buffer[i]? := by
  have hr := Paired.root_mem (findTask_some ht).1 ho
  have hin := hs.paired.inStep
  by_cases hzero : size=0
  · subst hzero
    rw [copyFromUser,ht] at h
    cases h
    exact ⟨rfl,fun i hi => absurd hi (Nat.not_lt_zero i)⟩
  have hvalid : userRangeValid address size=true := by
    by_contra hx
    rw [userRangeValid_iff] at hx
    rw [copyFromUser_invalid ht (by omega) (by omega)] at h
    cases h
  obtain ⟨hlow,hbound⟩ := (userRangeValid_iff _ _).mp hvalid
  have hroot : t.space.pml4Physical/4096=t.space.pml4Physical/4096 := rfl
  have hspec := copyFromUserFrom_spec hin hroot hr hbound (Nat.zero_add size).ge
    (Nat.zero_le size) length_nil (fun i hi => absurd hi (Nat.not_lt_zero i))
  rw [copyFromUser,ht] at h
  simp only [if_neg hzero,hvalid,Bool.not_true,Bool.false_eq_true,if_false] at h
  rw [h] at hspec
  refine ⟨hspec.1,fun i hi => ?_⟩
  rw [visibleIn_eq hin hr,if_pos (by omega),hspec.2 i hi]

/-- `copy_from_user` succeeds when every byte is there. -/
theorem copyFromUser_some (hs : WellKept s) (ht : s.findTask current=some t)
    (ho : t.ownsSpace=true) (hlen : buffer.length=size)
    (h : ∀ i, i<size → visibleIn t.space s.machine (address+i)=buffer[i]?) :
    copyFromUser current address size s=some buffer := by
  have hr := Paired.root_mem (findTask_some ht).1 ho
  have hin := hs.paired.inStep
  by_cases hzero : size=0
  · subst hzero
    rw [copyFromUser,ht,length_eq_zero_iff.mp hlen]
    rfl
  have hlow (i : Nat) (hi : i<size) : address+i<2 ^ 47 := by
    have hbyte := h i hi
    rw [visibleIn_eq hin hr,List.getElem?_eq_getElem (by omega)] at hbyte
    by_contra hx
    rw [if_neg hx] at hbyte
    cases hbyte
  have hlast := hlow (size-1) (by omega)
  have hbound : address+size≤2 ^ 47 := by omega
  have hvalid : userRangeValid address size=true := by
    rw [userRangeValid_iff]
    omega
  have hroot : t.space.pml4Physical/4096=t.space.pml4Physical/4096 := rfl
  have hspec := copyFromUserFrom_spec hin hroot hr hbound (Nat.zero_add size).ge
    (Nat.zero_le size) length_nil (fun i hi => absurd hi (Nat.not_lt_zero i))
  have hbyte (i : Nat) (hi : i<size) :
      userByte s.machine (t.space.pml4Physical/4096) (address+i)=buffer[i]? := by
    have hi' := h i hi
    rwa [visibleIn_eq hin hr,if_pos (hlow i hi)] at hi'
  rw [copyFromUser,ht]
  simp only [if_neg hzero,hvalid,Bool.not_true,Bool.false_eq_true,if_false]
  cases hresult : copyFromUserFrom t.space address size s.machine size 0 [] with
  | none =>
    rw [hresult] at hspec
    obtain ⟨i,hi,hnone⟩ := hspec
    rw [hbyte i hi,List.getElem?_eq_getElem (by omega)] at hnone
    cases hnone
  | some found =>
    rw [hresult] at hspec
    congr 1
    apply ext_getElem?
    intro i
    by_cases hi : i<size
    · rw [← hspec.2 i hi,hbyte i hi]
    · rw [List.getElem?_eq_none (by omega),List.getElem?_eq_none (by omega)]

/-- A range that was found writable can be written as long as pages for copies are left. -/
theorem copyToUser_writable (hs : WellKept s) (ht : s.findTask current=some t)
    (ho : t.ownsSpace=true)
    (hw : userRangeWritable current address bytes.length s=true) :
    (copyToUser current address bytes s).2.1=true ∨
      ((copyToUser current address bytes s).2.2.machine.allocUserPage).1=none := by
  have hr := Paired.root_mem (findTask_some ht).1 ho
  have hin := hs.paired.inStep
  rw [userRangeWritable,userRangeAccessible,ht] at hw
  dsimp only at hw
  split_ifs at hw with hbad hzero
  · have hempty : bytes=[] := length_eq_zero_iff.mp hzero
    subst hempty
    rw [copyToUser,ht]
    exact Or.inl rfl
  rw [Bool.not_eq_true,Bool.not_eq_false'] at hbad
  obtain ⟨hlow,hbound⟩ := (userRangeValid_iff _ _).mp hbad
  obtain ⟨k,done,m',hcall,hcopy,-,hstop⟩ := copyToUser_spec hs ht ho hbad
  rw [hcall]
  cases done with
  | true => exact Or.inl rfl
  | false =>
    right
    obtain ⟨hlt,halloc⟩ := hstop rfl
    have hpages : pageFloor address +
        (address+bytes.length-pageFloor address+4095)/4096*4096≤2 ^ 47 := by
      unfold pageFloor
      omega
    obtain ⟨e,he,hflags⟩ := pagesAccessible_spec hin hr hpages hw
      (v := (address+k)/4096) (by unfold pageFloor; omega) (by unfold pageFloor; omega)
    have hv := vpn_lt (by omega : address+k<2 ^ 47)
    have hahead := hcopy.ahead hlt (le_refl _) hv
    have hnone := halloc e (by rw [hahead,he]) hflags (hs.paired.exclusive hr hv he)
    show (m'.allocUserPage).1=none
    rw [hnone]

/-- Copying to and from user space is a bytewise update of virtual memory. -/
theorem user_copy_bytewise (s : Kernel) (hs : WellKept s) (current : Nat) (t : Task)
    (ht : s.findTask current=some t) (ho : t.ownsSpace=true) (address : Nat)
    (bytes : List UInt8) (size : Nat) :
    (∀ k s', copyToUser current address bytes s=(k,true,s') →
      CopiedTo s s' t address bytes) ∧
    (∀ buffer, copyFromUser current address size s=some buffer → buffer.length=size ∧
      ∀ i, i<size → visibleIn t.space s.machine (address+i)=buffer[i]?) ∧
    (bytes≠[] → 2 ^ 47≤address ∨ 2 ^ 47<address+bytes.length →
      copyToUser current address bytes s=(0,false,s)) ∧
    (0<size → 2 ^ 47≤address ∨ 2 ^ 47<address+size →
      copyFromUser current address size s=none) ∧
    (userRangeWritable current address bytes.length s=true →
      (copyToUser current address bytes s).2.1=true ∨
        ((copyToUser current address bytes s).2.2.machine.allocUserPage).1=none) :=
  ⟨fun _ _ h => copyToUser_copied hs ht ho h,fun _ h => copyFromUser_read hs ht ho h,
    copyToUser_invalid ht,copyFromUser_invalid ht,copyToUser_writable hs ht ho⟩

/-- Two bytes copied to the stack of the sample program. -/
theorem stack_bytes_copied :
    CopiedTo sampleUser (copyToUser 1 userStackAddress [7,8] sampleUser).2.2 sampleTask
        userStackAddress [7,8] ∧
      userRangeWritable 1 userStackAddress 2 sampleUser=true ∧
      copyFromUser 1 (2 ^ 47-1) 2 sampleUser=none := by
  obtain ⟨hto,-⟩ := user_copy_bytewise sampleUser sampleUser_wellKept 1 sampleTask
    sampleUser_task rfl userStackAddress [7,8] 2
  have hdone : (copyToUser 1 userStackAddress [7,8] sampleUser).2.1=true := by
    decide +kernel
  refine ⟨hto (copyToUser 1 userStackAddress [7,8] sampleUser).1 _ ?_,by decide +kernel,
    copyFromUser_invalid sampleUser_task (by decide) (by decide)⟩
  rw [← hdone]

end Copy

end ConeOS.Process
