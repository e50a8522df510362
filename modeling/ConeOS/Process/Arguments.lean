import ConeOS.Process.UserCopy
import Mathlib.Data.List.TakeWhile
import ConeOS.Vfs.Path

namespace ConeOS.Process

open ConeOS.Library ConeOS.Memory ConeOS.Vfs Kernel List

def maxExecArgumentBytes : Nat := 2048
def syscallEfault : Int := -14

section Model

/-- The inner loop of `SYSCALL_EXEC`: one string, with `room` bytes of the storage left and
`characters` read so far. -/
def collectString (current pointer : Nat) (s : Kernel) :
    Nat → List UInt8 → Except Int (List UInt8 × Nat)
  | 0, _ => .error syscallEinval
  | room+1, characters =>
    if pointer > 2 ^ 64-1-characters.length then .error syscallEinval
    else
      match copyFromUser current (pointer+characters.length) 1 s with
      | none => .error syscallEfault
      | some buffer =>
        if buffer.headD 0=0 then .ok (characters,room)
        else collectString current pointer s room (characters ++ [buffer.headD 0])

/-- The outer loop of `SYSCALL_EXEC`; the vector has to end before the rounds do. -/
def collectArguments (current vector : Nat) (s : Kernel) :
    Nat → Nat → List (List UInt8) → Except Int (List (List UInt8))
  | 0, _, _ => .error syscallEinval
  | rounds+1, room, arguments =>
    let slot := (vector+arguments.length*8)%2 ^ 64
    if slot<vector then .error syscallEfault
    else
      match copyFromUser current slot 8 s with
      | none => .error syscallEfault
      | some buffer =>
        let argumentPointer := (packBytes (fun k => buffer.getD k 0)).toNat
        if argumentPointer=0 then .ok arguments
        else if arguments.length=processMaxArguments then .error syscallEinval
        else
          match collectString current argumentPointer s room [] with
          | .error e => .error e
          | .ok (argument,room) =>
            collectArguments current vector s rounds room (arguments ++ [argument])

/-- The arguments `SYSCALL_EXEC` takes from the vector; no vector is an empty one. -/
def execArguments (current vector : Nat) (s : Kernel) : Except Int (List (List UInt8)) :=
  if vector=0 then .ok []
  else collectArguments current vector s (processMaxArguments+1) maxExecArgumentBytes []

/-- `SYSCALL_EXEC`; `files` is what `ramfs_read` finds. -/
def syscallExec (current : Nat) (work : KernelWork) (files : List UInt8 → Option (List UInt8))
    (path length vector : Nat) (s : Kernel) : Int × Kernel :=
  if length=0 ∨ length ≥ fsPathMax then (syscallEinval,s)
  else
    match copyFromUser current path length s with
    | none => (syscallEfault,s)
    | some buffer =>
      match execArguments current vector s with
      | .error e => (e,s)
      | .ok arguments => processExec current work (files (cString buffer)) arguments s

/-- The loop of `SYSCALL_SPAWN` over its 64-byte buffer: the string in it, cut after 63
characters. -/
def readArgument (current address : Nat) (s : Kernel) : Nat → List UInt8 → Option (List UInt8)
  | 0, characters => some characters
  | room+1, characters =>
    match copyFromUser current ((address+characters.length)%2 ^ 64) 1 s with
    | none => none
    | some buffer =>
      if buffer.headD 0=0 then some characters
      else readArgument current address s room (characters ++ [buffer.headD 0])

def spawnArgument (current address : Nat) (s : Kernel) : Option (List UInt8) :=
  if address=0 then some [] else readArgument current address s 63 []

/-- `SYSCALL_SPAWN`. -/
def syscallSpawn (current : Nat) (work : LaunchWork) (files : List UInt8 → Option (List UInt8))
    (path length argument : Nat) (s : Kernel) : Int × Kernel :=
  if length ≥ fsPathMax then (syscallEinval,s)
  else
    match copyFromUser current path length s with
    | none => (syscallEfault,s)
    | some buffer =>
      match spawnArgument current argument s with
      | none => (syscallEfault,s)
      | some characters =>
        processSpawn current work (cString buffer) characters (files (cString buffer)) s

end Model

section User

/-- The word at an address of user memory. -/
def UserWord (space : VmmSpace) (m : Machine) (address : Nat) (word : BitVec 64) : Prop :=
  ∀ k, k<8 → visibleIn space m (address+k)=some (byteOf word k)

/-- A string with its terminator in user memory. -/
def UserString (space : VmmSpace) (m : Machine) : Nat → List UInt8 → Prop
  | address, [] => visibleIn space m address=some 0
  | address, c :: cs => c≠0 ∧ visibleIn space m address=some c ∧
      UserString space m (address+1) cs

/-- A vector of pointers to strings, with its null, in user memory. -/
def UserVector (space : VmmSpace) (m : Machine) : Nat → List (List UInt8) → Prop
  | vector, [] => UserWord space m vector 0
  | vector, a :: as => (∃ pointer : BitVec 64, pointer≠0 ∧ UserWord space m vector pointer ∧
      UserString space m pointer.toNat a) ∧ UserVector space m (vector+8) as

/-- What a caller of exec passes: no vector at all, or one in its memory. -/
def ExecVector (space : VmmSpace) (m : Machine) (vector : Nat)
    (arguments : List (List UInt8)) : Prop :=
  if vector=0 then arguments=[] else UserVector space m vector arguments

/-- The argument vector of a new process: on the stack page, aligned, with its strings above
it, apart from each other. -/
structure ArgumentStack (space : VmmSpace) (m : Machine) (argv : Nat)
    (arguments : List (List UInt8)) (pointers : List Nat) : Prop where
  aligned : argv%8=0
  inside : userStackAddress≤argv
  room : argv+8*(arguments.length+1)≤userStackAddress+4096
  count : pointers.length=arguments.length
  vector : ∀ i, i<arguments.length →
    UserWord space m (argv+8*i) (BitVec.ofNat 64 (pointers.getD i 0))
  null : UserWord space m (argv+8*arguments.length) 0
  string : ∀ i, i<arguments.length →
    UserString space m (pointers.getD i 0) (arguments.getD i [])
  above : ∀ i, i<arguments.length → argv+8*(arguments.length+1)≤pointers.getD i 0
  apart : ∀ i j, i<j → j<arguments.length →
    pointers.getD i 0+(arguments.getD i []).length+1≤pointers.getD j 0
  below : ∀ i, i<arguments.length →
    pointers.getD i 0+(arguments.getD i []).length+1≤userStackAddress+4096

end User

section Collect

variable {s : Kernel} {current : Nat} {t : Task}

theorem visibleIn_low {space : VmmSpace} {m : Machine} {address : Nat} {c : UInt8}
    (h : visibleIn space m address=some c) : address<2 ^ 47 := by
  by_contra hx
  have hout : userAddressLimit≤address := Nat.le_of_not_lt hx
  rw [visibleIn,if_pos hout] at h
  cases h

theorem copyFromUser_one (hs : WellKept s) (ht : s.findTask current=some t)
    (ho : t.ownsSpace=true) (address : Nat) : copyFromUser current address 1 s =
      (visibleIn t.space s.machine address).map (fun c => [c]) := by
  cases hv : visibleIn t.space s.machine address with
  | none =>
    cases hc : copyFromUser current address 1 s with
    | none => rfl
    | some buffer =>
      obtain ⟨hlen,hread⟩ := copyFromUser_read hs ht ho hc
      have hfirst := hread 0 (by omega)
      rw [Nat.add_zero,hv,List.getElem?_eq_getElem (by omega)] at hfirst
      cases hfirst
  | some c =>
    have hlen : [c].length=1 := rfl
    refine copyFromUser_some hs ht ho hlen (fun i hi => ?_)
    rw [Nat.lt_one_iff.mp hi,Nat.add_zero,hv]
    rfl

theorem copyFromUser_word (hs : WellKept s) (ht : s.findTask current=some t)
    (ho : t.ownsSpace=true) (address : Nat) (word : BitVec 64) :
    (∃ buffer, copyFromUser current address 8 s=some buffer ∧
      packBytes (fun k => buffer.getD k 0)=word) ↔
    UserWord t.space s.machine address word := by
  constructor
  · intro h
    obtain ⟨buffer,hc,rfl⟩ := h
    obtain ⟨hlen,hread⟩ := copyFromUser_read hs ht ho hc
    intro k hk
    rw [hread k hk,byteOf_packBytes _ hk,getD_eq_getElem?_getD,List.getElem?_eq_getElem (by omega)]
    rfl
  intro h
  refine ⟨(List.range 8).map (byteOf word),?_,?_⟩
  · apply copyFromUser_some hs ht ho (by simp)
    intro i hi
    rw [h i hi,List.getElem?_map,List.getElem?_range hi]
    rfl
  apply word_ext
  intro k hk
  rw [byteOf_packBytes _ hk,getD_eq_getElem?_getD,List.getElem?_map,List.getElem?_range hk]
  rfl

/-- The inner loop takes exactly the string that is there, if it fits. -/
theorem collectString_iff (hs : WellKept s) (ht : s.findTask current=some t)
    (ho : t.ownsSpace=true) (pointer room : Nat) (characters string : List UInt8)
    (left : Nat) :
    collectString current pointer s room characters = .ok (string,left) ↔
      ∃ rest, string=characters ++ rest ∧
        UserString t.space s.machine (pointer+characters.length) rest ∧
        left+rest.length+1=room := by
  induction room generalizing characters with
  | zero =>
    rw [collectString]
    simp
  | succ room ih =>
    rw [collectString,copyFromUser_one hs ht ho]
    by_cases hwrap : pointer > 2 ^ 64-1-characters.length
    · rw [if_pos hwrap]
      simp only [reduceCtorEq,false_iff]
      intro h
      obtain ⟨rest,-,hstring,-⟩ := h
      have hlow : pointer+characters.length<2 ^ 47 := by
        cases rest with
        | nil => exact visibleIn_low hstring
        | cons c cs => exact visibleIn_low hstring.2.1
      omega
    rw [if_neg hwrap]
    cases hv : visibleIn t.space s.machine (pointer+characters.length) with
    | none =>
      simp only [Option.map_none,reduceCtorEq,false_iff]
      intro h
      obtain ⟨rest,-,hstring,-⟩ := h
      cases rest with
      | nil => rw [UserString,hv] at hstring; cases hstring
      | cons c cs => rw [UserString,hv] at hstring; cases hstring.2.1
    | some c =>
      simp only [Option.map_some]
      by_cases hc : c=0
      · subst hc
        rw [if_pos (show ([0] : List UInt8).headD 0=0 from rfl)]
        simp only [Except.ok.injEq,Prod.mk.injEq]
        constructor
        · intro h
          obtain ⟨rfl,rfl⟩ := h
          exact ⟨[],by simp,hv,rfl⟩
        intro h
        obtain ⟨rest,rfl,hstring,hleft⟩ := h
        cases rest with
        | nil => exact ⟨by simp,by simpa using hleft.symm⟩
        | cons d ds =>
          rw [UserString,hv] at hstring
          exact absurd (Option.some.inj hstring.2.1).symm hstring.1
      rw [if_neg (show ¬ [c].headD 0=0 from hc),ih,headD_cons,length_append,
        length_singleton,← Nat.add_assoc]
      constructor
      · intro h
        obtain ⟨rest,rfl,hstring,hleft⟩ := h
        exact ⟨c :: rest,by simp,⟨hc,hv,hstring⟩,by rw [length_cons]; omega⟩
      intro h
      obtain ⟨rest,rfl,hstring,hleft⟩ := h
      cases rest with
      | nil =>
        rw [UserString,hv] at hstring
        exact absurd (Option.some.inj hstring) hc
      | cons d ds =>
        rw [UserString,hv] at hstring
        obtain ⟨-,hd,hrest⟩ := hstring
        cases hd
        rw [length_cons] at hleft
        exact ⟨ds,by simp,hrest,by omega⟩

theorem collectString_nil_iff (hs : WellKept s) (ht : s.findTask current=some t)
    (ho : t.ownsSpace=true) (pointer room : Nat) (string : List UInt8) (left : Nat) :
    collectString current pointer s room [] = .ok (string,left) ↔
      UserString t.space s.machine pointer string ∧ left+string.length+1=room := by
  rw [collectString_iff hs ht ho]
  simp

theorem collectString_error {pointer room : Nat} {characters : List UInt8} {e : Int}
    (h : collectString current pointer s room characters = .error e) :
    e=syscallEinval ∨ e=syscallEfault := by
  induction room generalizing characters with
  | zero =>
    cases h
    exact Or.inl rfl
  | succ room ih =>
    rw [collectString] at h
    split_ifs at h with hwrap
    · cases h
      exact Or.inl rfl
    split at h
    · cases h
      exact Or.inr rfl
    · split_ifs at h with hend
      exact ih h

/-- The outer loop takes exactly the vector that is there, if it is within both limits. -/
theorem collectArguments_iff (hs : WellKept s) (ht : s.findTask current=some t)
    (ho : t.ownsSpace=true) (vector rounds room : Nat) (done all : List (List UInt8))
    (hrounds : done.length+rounds=processMaxArguments+1) :
    collectArguments current vector s rounds room done = .ok all ↔
      ∃ rest, all=done ++ rest ∧
        UserVector t.space s.machine (vector+8*done.length) rest ∧
        done.length+rest.length≤processMaxArguments ∧ stringBytes rest≤room := by
  have hmax : processMaxArguments=16 := rfl
  induction rounds generalizing room done with
  | zero =>
    rw [collectArguments]
    simp only [reduceCtorEq,false_iff]
    intro h
    obtain ⟨rest,-,-,hcount,-⟩ := h
    omega
  | succ rounds ih =>
    have hslot (rest : List (List UInt8))
        (h : UserVector t.space s.machine (vector+8*done.length) rest) :
        ∃ pointer, UserWord t.space s.machine (vector+8*done.length) pointer ∧
          vector+8*done.length<2 ^ 47 := by
      cases rest with
      | nil =>
        have hlow := visibleIn_low (h 0 (by omega))
        exact ⟨0,h,by omega⟩
      | cons a as =>
        obtain ⟨⟨pointer,-,hword,-⟩,-⟩ := h
        have hlow := visibleIn_low (hword 0 (by omega))
        exact ⟨pointer,hword,by omega⟩
    rw [collectArguments]
    dsimp only
    by_cases hwrap : (vector+done.length*8)%2 ^ 64<vector
    · rw [if_pos hwrap]
      simp only [reduceCtorEq,false_iff]
      intro h
      obtain ⟨rest,-,hvector,-⟩ := h
      obtain ⟨-,-,hlow⟩ := hslot rest hvector
      omega
    have haddress : (vector+done.length*8)%2 ^ 64=vector+8*done.length := by omega
    rw [if_neg hwrap,haddress]
    cases hc : copyFromUser current (vector+8*done.length) 8 s with
    | none =>
      simp only [reduceCtorEq,false_iff]
      intro h
      obtain ⟨rest,-,hvector,-⟩ := h
      obtain ⟨pointer,hword,-⟩ := hslot rest hvector
      obtain ⟨buffer,hbuffer,-⟩ := (copyFromUser_word hs ht ho _ _).mpr hword
      rw [hc] at hbuffer
      cases hbuffer
    | some buffer =>
      have hword := (copyFromUser_word hs ht ho _ _).mp ⟨buffer,hc,rfl⟩
      dsimp only
      generalize packBytes (fun k => buffer.getD k 0)=pointer at hword
      have hunique (other : BitVec 64)
          (h : UserWord t.space s.machine (vector+8*done.length) other) : other=pointer := by
        apply word_ext
        intro k hk
        have hk' := h k hk
        rw [hword k hk] at hk'
        exact (Option.some.inj hk').symm
      by_cases hnull : pointer=0
      · have hzero : pointer.toNat=0 := by rw [hnull]; rfl
        rw [if_pos hzero]
        simp only [Except.ok.injEq]
        constructor
        · intro h
          rw [hnull] at hword
          exact ⟨[],by simp [h],hword,by rw [length_nil]; omega,Nat.zero_le _⟩
        intro h
        obtain ⟨rest,rfl,hvector,-⟩ := h
        cases rest with
        | nil => simp
        | cons a as =>
          obtain ⟨⟨other,hne,hother,-⟩,-⟩ := hvector
          exact absurd ((hunique other hother).trans hnull) hne
      have hpos : ¬ pointer.toNat=0 := fun hx => hnull (BitVec.eq_of_toNat_eq hx)
      rw [if_neg hpos]
      -- a vector that goes on here starts with this pointer
      have hnext (rest : List (List UInt8))
          (h : UserVector t.space s.machine (vector+8*done.length) rest) :
          ∃ a as, rest=a :: as ∧ UserString t.space s.machine pointer.toNat a ∧
            UserVector t.space s.machine (vector+8*done.length+8) as := by
        cases rest with
        | nil => exact absurd (hunique 0 h).symm hnull
        | cons a as =>
          obtain ⟨⟨other,-,hother,hstring⟩,hrest⟩ := h
          rw [hunique other hother] at hstring
          exact ⟨a,as,rfl,hstring,hrest⟩
      by_cases hfull : done.length=processMaxArguments
      · rw [if_pos hfull]
        simp only [reduceCtorEq,false_iff]
        intro h
        obtain ⟨rest,-,hvector,hcount,-⟩ := h
        obtain ⟨a,as,rfl,-⟩ := hnext rest hvector
        rw [length_cons] at hcount
        omega
      rw [if_neg hfull]
      cases hstring : collectString current pointer.toNat s room [] with
      | error e =>
        simp only [reduceCtorEq,false_iff]
        intro h
        obtain ⟨rest,-,hvector,-,hbytes⟩ := h
        obtain ⟨a,as,rfl,ha,-⟩ := hnext rest hvector
        rw [stringBytes] at hbytes
        have hok := (collectString_nil_iff hs ht ho pointer.toNat room a
          (room-(a.length+1))).mpr ⟨ha,by omega⟩
        rw [hstring] at hok
        cases hok
      | ok result =>
        obtain ⟨argument,left⟩ := result
        obtain ⟨ha,hleft⟩ := (collectString_nil_iff hs ht ho _ _ _ _).mp hstring
        dsimp only
        have hone : (done ++ [argument]).length=done.length+1 := by simp
        refine (ih left (done ++ [argument]) (by omega)).trans ?_
        rw [hone,show vector+8*(done.length+1)=vector+8*done.length+8 by omega]
        constructor
        · intro h
          obtain ⟨rest,rfl,hvector,hcount,hbytes⟩ := h
          refine ⟨argument :: rest,by simp,⟨⟨pointer,hnull,hword,ha⟩,hvector⟩,?_,?_⟩
          · rw [length_cons]
            omega
          · rw [stringBytes]
            omega
        intro h
        obtain ⟨rest,rfl,hvector,hcount,hbytes⟩ := h
        obtain ⟨a,as,rfl,ha',hrest⟩ := hnext rest hvector
        rw [stringBytes] at hbytes
        have hsame := (collectString_nil_iff hs ht ho pointer.toNat room a
          (room-(a.length+1))).mpr ⟨ha',by omega⟩
        rw [hstring] at hsame
        cases hsame
        rw [length_cons] at hcount
        exact ⟨as,by simp,hrest,by omega,by omega⟩

theorem collectArguments_error {vector rounds room : Nat} {done : List (List UInt8)} {e : Int}
    (h : collectArguments current vector s rounds room done = .error e) :
    e=syscallEinval ∨ e=syscallEfault := by
  induction rounds generalizing room done with
  | zero =>
    cases h
    exact Or.inl rfl
  | succ rounds ih =>
    rw [collectArguments] at h
    dsimp only at h
    by_cases hwrap : (vector+done.length*8)%2 ^ 64<vector
    · rw [if_pos hwrap] at h
      cases h
      exact Or.inr rfl
    rw [if_neg hwrap] at h
    split at h
    · cases h
      exact Or.inr rfl
    rename_i buffer hcopy
    by_cases hnull : (packBytes (fun k => buffer.getD k 0)).toNat=0
    · rw [if_pos hnull] at h
      cases h
    rw [if_neg hnull] at h
    by_cases hfull : done.length=processMaxArguments
    · rw [if_pos hfull] at h
      cases h
      exact Or.inl rfl
    rw [if_neg hfull] at h
    split at h
    · rename_i hstring
      cases h
      exact collectString_error hstring
    · exact ih h

theorem execArguments_iff (hs : WellKept s) (ht : s.findTask current=some t)
    (ho : t.ownsSpace=true) (vector : Nat) (arguments : List (List UInt8)) :
    execArguments current vector s = .ok arguments ↔
      ExecVector t.space s.machine vector arguments ∧ arguments.length≤processMaxArguments ∧
        stringBytes arguments ≤ maxExecArgumentBytes := by
  rw [execArguments,ExecVector]
  split_ifs with hnull
  · simp only [Except.ok.injEq]
    constructor
    · intro h
      subst h
      exact ⟨rfl,Nat.zero_le _,Nat.zero_le _⟩
    · intro h
      exact h.1.symm
  · rw [collectArguments_iff hs ht ho _ _ _ _ _ (by simp)]
    simp

end Collect

section Delivered

variable {space : VmmSpace} {m m' : Machine} {b : Block} {arguments : List (List UInt8)}
  {start cursor : Nat} {i address vector : Nat} {file : List UInt8} {image : ProcessImage}
  {work : KernelWork}

theorem stringBytes_take_succ (arguments : List (List UInt8)) (hi : i<arguments.length) :
    stringBytes (arguments.take (i+1)) =
      stringBytes (arguments.take i)+(arguments.getD i []).length+1 := by
  induction arguments generalizing i with
  | nil => exact absurd hi (Nat.not_lt_zero i)
  | cons a as ih =>
    cases i with
    | zero => simp [stringBytes]
    | succ i =>
      have hrest := ih (Nat.lt_of_succ_lt_succ hi)
      simp only [take_succ_cons,stringBytes,getD_cons_succ,hrest]
      omega

theorem stringBytes_take_le (arguments : List (List UInt8)) {j : Nat} (hij : i≤j) :
    stringBytes (arguments.take i) ≤ stringBytes (arguments.take j) := by
  induction arguments generalizing i j with
  | nil => simp [stringBytes]
  | cons a as ih =>
    cases i with
    | zero => exact Nat.zero_le _
    | succ i =>
      cases j with
      | zero => omega
      | succ j =>
        simp only [take_succ_cons,stringBytes]
        exact Nat.add_le_add_left (ih (Nat.le_of_succ_le_succ hij)) _

theorem stringAddresses_getD (hi : i<arguments.length) :
    (stringAddresses arguments start).getD i 0 =
      userStackAddress+(start+stringBytes (arguments.take i)) := by
  induction arguments generalizing i start with
  | nil => exact absurd hi (Nat.not_lt_zero i)
  | cons a as ih =>
    cases i with
    | zero => simp [stringAddresses,stringBytes]
    | succ i =>
      rw [stringAddresses,getD_cons_succ,ih (Nat.lt_of_succ_lt_succ hi)]
      simp only [take_succ_cons,stringBytes]
      omega

theorem userString_of_visible {string : List UInt8}
    (hvisible : ∀ i, i<string.length → visibleIn space m (address+i)=string[i]?)
    (hend : visibleIn space m (address+string.length)=some 0)
    (hplain : (0 : UInt8) ∉ string) : UserString space m address string := by
  induction string generalizing address with
  | nil => exact hend
  | cons c cs ih =>
    rw [mem_cons,not_or] at hplain
    rw [length_cons] at hvisible hend
    refine ⟨fun hc => hplain.1 hc.symm,hvisible 0 (by omega),ih ?_ ?_ hplain.2⟩
    · intro i hi
      have hnext := hvisible (i+1) (by omega)
      rwa [List.getElem?_cons_succ,Nat.add_comm i,← Nat.add_assoc] at hnext
    · rwa [Nat.add_comm cs.length,← Nat.add_assoc] at hend

theorem userString_of_bytes (hvisible : ∀ o, o<4096 →
      visibleIn space m (userStackAddress+o)=some (readByte b o))
    {string : List UInt8} (hplain : (0 : UInt8) ∉ string)
    (hfit : start+string.length<4096)
    (hbytes : ∀ i, i<string.length → readByte b (start+i)=string.getD i 0)
    (hend : readByte b (start+string.length)=0) :
    UserString space m (userStackAddress+start) string := by
  refine userString_of_visible (fun i hi => ?_) ?_ hplain
  · rw [Nat.add_assoc,hvisible _ (by omega),hbytes i hi,getD_eq_getElem _ _ hi,
      List.getElem?_eq_getElem hi]
  · rw [Nat.add_assoc,hvisible _ hfit,hend]

theorem Laid.string (h : Laid b arguments start) (hi : i<arguments.length) :
    (∀ k, k<(arguments.getD i []).length →
      readByte b (start+stringBytes (arguments.take i)+k) =
        (arguments.getD i []).getD k 0) ∧
    readByte b (start+stringBytes (arguments.take i)+(arguments.getD i []).length)=0 := by
  induction arguments generalizing i start with
  | nil => exact absurd hi (Nat.not_lt_zero i)
  | cons a as ih =>
    cases i with
    | zero => exact ⟨h.1,h.2.1⟩
    | succ i =>
      have hrest := ih h.2.2 (Nat.lt_of_succ_lt_succ hi)
      simp only [take_succ_cons,stringBytes,getD_cons_succ]
      rw [show start+(a.length+1+stringBytes (as.take i)) =
        start+a.length+1+stringBytes (as.take i) by omega]
      exact hrest

/-- What the kernel laid out is what the new process finds. -/
theorem StackLayout.argumentStack (h : StackLayout b arguments cursor)
    (hvisible : ∀ o, o<4096 → visibleIn space m (userStackAddress+o)=some (readByte b o))
    (hplain : ∀ a ∈ arguments, (0 : UInt8) ∉ a) :
    ArgumentStack space m (userStackAddress+cursor) arguments
      (stringAddresses arguments (4096-stringBytes arguments)) := by
  have hroom := h.room
  have haligned := h.aligned
  have hstack : userStackAddress%8=0 := by decide
  have hword {i : Nat} (hi : i≤arguments.length) :
      UserWord space m (userStackAddress+cursor+8*i) (b (cursor/8+i)) := by
    intro k hk
    rw [Nat.add_assoc,Nat.add_assoc,hvisible _ (by omega),
      show cursor+(8*i+k)=8*(cursor/8+i)+k by omega,readByte_word _ _ hk]
  have hall : stringBytes (arguments.take arguments.length)=stringBytes arguments := by
    rw [take_length]
  have hnext {i : Nat} (hi : i<arguments.length) := stringBytes_take_succ arguments hi
  have hmono {i j : Nat} (hij : i<j) :
      stringBytes (arguments.take (i+1)) ≤ stringBytes (arguments.take j) :=
    stringBytes_take_le arguments hij
  refine ⟨by omega,by omega,by omega,length_stringAddresses _ _,?_,?_,?_,?_,?_,?_⟩
  · intro i hi
    rw [← h.vector i hi]
    exact hword hi.le
  · rw [← h.null]
    exact hword le_rfl
  · intro i hi
    have hlast := hmono hi
    have hsucc := hnext hi
    obtain ⟨hbytes,hend⟩ := h.laid.string hi
    rw [stringAddresses_getD hi]
    have hmem : arguments.getD i [] ∈ arguments := by
      rw [getD_eq_getElem _ _ hi]
      exact getElem_mem hi
    exact userString_of_bytes hvisible (hplain _ hmem) (by omega) hbytes hend
  · intro i hi
    rw [stringAddresses_getD hi]
    omega
  · intro i j hij hj
    rw [stringAddresses_getD (by omega),stringAddresses_getD hj]
    have hlast := hmono hij
    have hsucc := hnext (hij.trans hj)
    omega
  intro i hi
  rw [stringAddresses_getD hi]
  have hlast := hmono hi
  have hsucc := hnext hi
  omega

theorem UserString.plain {string : List UInt8}
    (h : UserString space m address string) : (0 : UInt8) ∉ string := by
  induction string generalizing address with
  | nil => exact not_mem_nil
  | cons c cs ih =>
    rw [mem_cons,not_or]
    exact ⟨fun hc => h.1 hc.symm,ih h.2.2⟩

theorem UserVector.plain (h : UserVector space m vector arguments) :
    ∀ a ∈ arguments, (0 : UInt8) ∉ a := by
  induction arguments generalizing vector with
  | nil => exact fun a ha => absurd ha not_mem_nil
  | cons a as ih =>
    obtain ⟨⟨pointer,-,-,hstring⟩,hrest⟩ := h
    intro x hx
    rcases mem_cons.mp hx with rfl | hx
    · exact hstring.plain
    · exact ih hrest x hx

theorem ExecVector.plain (h : ExecVector space m vector arguments) :
    ∀ a ∈ arguments, (0 : UInt8) ∉ a := by
  rw [ExecVector] at h
  split_ifs at h with hnull
  · subst h
    exact fun a ha => absurd ha not_mem_nil
  · exact h.plain

/-- The stack page of a new process, as the process sees it. -/
theorem ImageBuilt.argumentStack {roots : Finset Nat} {c : Nat} {m0 n : Machine}
    (hbuilt : ImageBuilt file arguments c m0 m image)
    (h : InStep (insert c roots) m n) (hspace : image.space=⟨c*4096,false⟩)
    (hplain : ∀ a ∈ arguments, (0 : UInt8) ∉ a) :
    ∃ pointers, ArgumentStack image.space m image.argv arguments pointers := by
  have hdiv : c*4096/4096=c := Nat.mul_div_cancel _ (by omega)
  have hr : image.space.pml4Physical/4096 ∈ insert c roots := by
    rw [hspace,hdiv]
    exact Finset.mem_insert_self c roots
  obtain ⟨e,cursor,he,-,hlayout,-,hargv⟩ := hbuilt.stack
  rw [hargv]
  refine ⟨_,hlayout.argumentStack (fun o ho => ?_) hplain⟩
  have hstack : userStackAddress%4096=0 ∧ userStackAddress<2 ^ 46 := by decide
  have hpage : (userStackAddress+o)/4096=userStackAddress/4096 := by omega
  have hoffset : (userStackAddress+o)%4096 = o := by omega
  rw [visibleIn_eq h hr,if_pos (by omega),userByte,hpage,hoffset,hspace,hdiv,pageAt_of_leaf he]
  rfl

/-- Arguments that fit do not keep an image from being made. -/
theorem fillImage_fits
    (h : fillImage space file [] m=(.ok image,m'))
    (hfit : stringBytes arguments+8*(arguments.length+1)+7≤4096) :
    ∃ image m', fillImage space file arguments m=(.ok image,m') := by
  rw [fillImage] at h ⊢
  cases helf : elfLoad file space (processMemoryLimitPages-1) m with
  | mk result m1 =>
    rw [helf] at h
    cases result with
    | error e => cases h
    | ok elf =>
      dsimp only at h ⊢
      cases halloc : m1.allocUserPage with
      | mk page m2 =>
        rw [halloc] at h
        cases page with
        | none => cases h
        | some stack =>
          dsimp only at h ⊢
          cases hmap : mapPageLocked space userStackAddress (stack*4096)
              (vmmUser ||| vmmWritable ||| vmmNoExecute) m2 with
          | mk mapped m3 =>
            rw [hmap] at h
            cases mapped with
            | false => cases h
            | true =>
              obtain ⟨result,m4,hbuild,-,hsome,-⟩ := buildStack_spec stack m3 arguments
              rw [hsome (by omega) (by omega)] at hbuild
              simp only [hbuild]
              exact ⟨_,_,rfl⟩

theorem createProcessImage_fits {file : Option (List UInt8)}
    (h : createProcessImage work file [] m=(.ok image,m'))
    (hcount : arguments.length≤processMaxArguments)
    (hfit : stringBytes arguments+8*(arguments.length+1)+7≤4096) :
    ∃ image m', createProcessImage work file arguments m=(.ok image,m') := by
  rw [createProcessImage,if_neg (by decide)] at h
  rw [createProcessImage,if_neg (by omega)]
  cases hcreate : vmmSpaceCreate work m with
  | mk space m1 =>
    rw [hcreate] at h
    cases space with
    | none => cases h
    | some space =>
      cases file with
      | none => cases h
      | some file =>
        dsimp only at h ⊢
        cases hfill : fillImage space file [] m1 with
        | mk result m2 =>
          rw [hfill] at h
          cases result with
          | error e => cases h
          | ok image0 =>
            obtain ⟨image1,m3,hfill1⟩ := fillImage_fits hfill hfit
            rw [hfill1]
            exact ⟨image1,m3,rfl⟩

theorem createProcessImage_argumentStack {s : Kernel} (hs : WellKept s)
    {file : Option (List UInt8)}
    (h : createProcessImage work file arguments s.machine=(.ok image,m'))
    (hplain : ∀ a ∈ arguments, (0 : UInt8) ∉ a) :
    image.argc=arguments.length ∧
      ∃ pointers, ArgumentStack image.space m' image.argv arguments pointers := by
  obtain ⟨result,m1,n1,hm1,-,hresult⟩ :=
    createProcessImage_inStep hs.paired.inStep work file arguments rfl
  rw [h] at hm1
  cases hm1
  obtain ⟨c,m0,bytes,-,-,hspace,hin,-,-,-,hbuilt⟩ := hresult
  exact ⟨hbuilt.argc,hbuilt.argumentStack hin hspace hplain⟩

theorem UserWord.congr {word : BitVec 64}
    (h : UserWord space m address word)
    (hm : ∀ a, visibleIn space m' a=visibleIn space m a) : UserWord space m' address word :=
  fun k hk => (hm _).trans (h k hk)

theorem UserString.congr
    {string : List UInt8} (h : UserString space m address string)
    (hm : ∀ a, visibleIn space m' a=visibleIn space m a) :
    UserString space m' address string := by
  induction string generalizing address with
  | nil => exact (hm _).trans h
  | cons c cs ih => exact ⟨h.1,(hm _).trans h.2.1,ih h.2.2⟩

theorem ArgumentStack.congr {argv : Nat} {pointers : List Nat}
    (h : ArgumentStack space m argv arguments pointers)
    (hm : ∀ a, visibleIn space m' a=visibleIn space m a) :
    ArgumentStack space m' argv arguments pointers :=
  { h with
    vector := fun i hi => (h.vector i hi).congr hm
    null := h.null.congr hm
    string := fun i hi => (h.string i hi).congr hm }

theorem UserString.unique {x y : List UInt8} (hx : UserString space m address x)
    (hy : UserString space m address y) : x=y := by
  induction x generalizing address y with
  | nil =>
    cases y with
    | nil => rfl
    | cons d ds => exact absurd (Option.some.inj (hx.symm.trans hy.2.1)).symm hy.1
  | cons c cs ih =>
    cases y with
    | nil => exact absurd (Option.some.inj (hy.symm.trans hx.2.1)).symm hx.1
    | cons d ds =>
      rw [Option.some.inj (hx.2.1.symm.trans hy.2.1),ih hx.2.2 hy.2.2]

/-- A process finds one vector at an address. -/
theorem ArgumentStack.unique {argv : Nat} {xs ys : List (List UInt8)} {ps qs : List Nat}
    (hx : ArgumentStack space m argv xs ps) (hy : ArgumentStack space m argv ys qs)
    (hlen : xs.length=ys.length) : xs=ys := by
  refine List.ext_getElem hlen (fun i hi hi' => ?_)
  have hword : BitVec.ofNat 64 (ps.getD i 0)=BitVec.ofNat 64 (qs.getD i 0) := word_ext
    (fun k hk => Option.some.inj ((hx.vector i hi k hk).symm.trans (hy.vector i hi' k hk)))
  have hp := hx.below i hi
  have hq := hy.below i hi'
  have hstack : userStackAddress+4096<2^64 := by decide
  have hpointer := congrArg BitVec.toNat hword
  rw [BitVec.toNat_ofNat,BitVec.toNat_ofNat,Nat.mod_eq_of_lt (by omega),
    Nat.mod_eq_of_lt (by omega)] at hpointer
  have hstring := (hpointer ▸ hx.string i hi).unique (hy.string i hi')
  rwa [getD_eq_getElem _ _ hi,getD_eq_getElem _ _ hi'] at hstring

/-- The process of a task was given a new image, with these arguments on its stack. -/
structure Loaded (s s' : Kernel) (work : KernelWork) (file : Option (List UInt8)) (t : Task)
    (arguments : List (List UInt8)) (image : ProcessImage) : Prop where
  made : (createProcessImage work file arguments s.machine).1 = .ok image
  task : s'.findTask t.id=some { t with space := image.space }
  argc : image.argc=arguments.length
  argv : ∃ pointers, ArgumentStack image.space s'.machine image.argv arguments pointers

end Delivered

section Exec

/-- An exec of a running process that got its image moves the task to it. -/
theorem processExec_moved {s : Kernel} (hs : WellKept s) {current : Nat} {t : Task}
    (ht : s.findTask current=some t) (ho : t.ownsSpace=true) {i : Fin maxProcesses}
    (hfind : s.findProcess current=some i) (hrun : (s.processes i).state = .running)
    {work : KernelWork} {file : Option (List UInt8)} {arguments : List (List UInt8)}
    {image : ProcessImage} {m' : Machine}
    (himage : createProcessImage work file arguments s.machine=(.ok image,m')) :
    ∃ s', processExec current work file arguments s=(0,s') ∧
      s'.findTask current=some { t with space := image.space } ∧
      ∀ a, visibleIn image.space s'.machine a=visibleIn image.space m' a := by
  obtain ⟨result,m1,n1,hm1,-,hresult⟩ :=
    createProcessImage_inStep hs.paired.inStep work file arguments rfl
  rw [himage] at hm1
  cases hm1
  obtain ⟨c,m0,bytes,hnew,-,hspace,h1,-⟩ := hresult
  have hmem := (findTask_some ht).1
  have hroot := Paired.root_mem hmem ho
  have hdiv : image.space.pml4Physical/4096=c := by
    rw [hspace,Nat.mul_div_cancel _ (by omega)]
  have hother : t.space.pml4Physical/4096≠c := fun hx => hnew (hx ▸ hroot)
  have hstay : ¬ (image.space.isKernel ∨ t.ownsSpace=false ∨ t.space=image.space) := by
    rw [hspace,ho]
    rintro (h | h | h)
    · cases h
    · cases h
    · exact hother (by rw [h,Nat.mul_div_cancel _ (by omega)])
  have htask : (s.setMachine m').findTask current=some t := ht
  obtain ⟨h2,-,hrestored⟩ := h1.vmmSpaceDestroy (Finset.mem_insert_of_mem hroot)
    (hs.book.isKernel t hmem ho)
  rw [processExec,hfind]
  simp only [hrun,ne_eq,not_true_eq_false,if_false,himage,taskReplaceAddressSpace,htask,if_neg hstay]
  refine ⟨_,rfl,?_,fun a => ?_⟩
  · show (s.tasks.map _).find? (fun (t : Task) => t.id == current)=_
    have hids : ((fun t : Task => t.id == current) ∘ fun t : Task =>
        if t.id=current then { t with space := image.space, ownsSpace := true } else t) =
        fun t => t.id == current := by
      funext u
      dsimp only [Function.comp]
      split_ifs <;> rfl
    rw [find?_map,hids,show s.tasks.find? (fun t => t.id == current)=some t from ht,
      Option.map_some,if_pos (findTask_some ht).2,← ho]
  · show visibleIn image.space (vmmSpaceDestroy t.space m') a=_
    have hc := Finset.mem_insert_self c (ownedRoots s.tasks).toFinset
    have hleft := Finset.mem_erase.mpr ⟨hother.symm,hc⟩
    rw [visibleIn_eq h2 (by rwa [hdiv]),visibleIn_eq h1 (by rwa [hdiv]),hdiv]
    split_ifs with ha
    · rw [userByte,userByte,hrestored.pages hc (vpn_lt ha)]
    · rfl

/-- `SYSCALL_EXEC` takes a vector of at most 16 strings and 2048 bytes as it stands in the
caller's memory and delivers it to the image of a program that can be loaded; it refuses every
other. -/
theorem exec_arguments_delivered (s : Kernel) (hs : WellKept s) (current : Nat) (t : Task)
    (ht : s.findTask current=some t) (ho : t.ownsSpace=true) (work : KernelWork)
    (files : List UInt8 → Option (List UInt8)) (path length vector : Nat) :
    (∀ arguments, ExecVector t.space s.machine vector arguments → arguments.length≤16 →
      stringBytes arguments≤2048 →
      execArguments current vector s = .ok arguments ∧
      ∀ buffer i image₀ m₀, 0<length → length<fsPathMax →
        copyFromUser current path length s=some buffer →
        s.findProcess current=some i → (s.processes i).state = .running →
        createProcessImage work (files (cString buffer)) [] s.machine=(.ok image₀,m₀) →
        (syscallExec current work files path length vector s).1=0 ∧
          ∃ image, Loaded s (syscallExec current work files path length vector s).2 work
            (files (cString buffer)) t arguments image) ∧
    ((¬ ∃ arguments, ExecVector t.space s.machine vector arguments ∧ arguments.length≤16 ∧
        stringBytes arguments≤2048) →
      syscallExec current work files path length vector s=(syscallEinval,s) ∨
        syscallExec current work files path length vector s=(syscallEfault,s)) := by
  constructor
  · intro arguments hvector hcount hbytes
    have htaken := (execArguments_iff hs ht ho vector arguments).mpr ⟨hvector,hcount,hbytes⟩
    refine ⟨htaken,?_⟩
    intro buffer i image₀ m₀ hpos hshort hpath hfind hrun hload
    obtain ⟨image,m',himage⟩ := createProcessImage_fits hload hcount (by omega)
    obtain ⟨hargc,pointers,hstack⟩ := createProcessImage_argumentStack hs himage hvector.plain
    obtain ⟨s',hexec,htask,hvisible⟩ := processExec_moved hs ht ho hfind hrun himage
    rw [syscallExec,if_neg (by omega)]
    simp only [hpath,htaken,hexec,true_and]
    rw [← (findTask_some ht).2] at htask
    exact ⟨image,by rw [himage],htask,hargc,pointers,hstack.congr hvisible⟩
  intro hnone
  rw [syscallExec]
  split_ifs with hpath
  · exact Or.inl rfl
  cases copyFromUser current path length s with
  | none => exact Or.inr rfl
  | some buffer =>
    dsimp only
    cases harguments : execArguments current vector s with
    | ok arguments =>
      exact absurd ⟨arguments,(execArguments_iff hs ht ho vector arguments).mp harguments⟩ hnone
    | error e =>
      rw [execArguments] at harguments
      split_ifs at harguments with hnull
      rcases collectArguments_error harguments with rfl | rfl
      · exact Or.inl rfl
      · exact Or.inr rfl

/-- The sample program with these bytes at the start of its stack page. -/
def sampleHolding (bytes : List UInt8) : Kernel :=
  (Kernel.run [.spawn 0 idleLaunch [0x69] [] (some sampleElf),
    .copyToUser 1 userStackAddress bytes] (Kernel.boot (sampleMachine 0))).1

theorem sampleHolding_wellKept (bytes : List UInt8) : WellKept (sampleHolding bytes) :=
  (sampleMachine_booted 0).run _

theorem userString_of_read {s : Kernel} (hs : WellKept s) {current : Nat} {t : Task}
    (ht : s.findTask current=some t) (ho : t.ownsSpace=true) {address : Nat}
    {string : List UInt8} (hplain : (0 : UInt8) ∉ string)
    (h : copyFromUser current address (string.length+1) s=some (string ++ [0])) :
    UserString t.space s.machine address string := by
  obtain ⟨-,hread⟩ := copyFromUser_read hs ht ho h
  refine userString_of_visible (fun i hi => ?_) ?_ hplain
  · rw [hread i (by omega),List.getElem?_append_left hi]
  · rw [hread _ (by omega),List.getElem?_append_right le_rfl,Nat.sub_self]
    rfl

/-- A vector of two strings, the letters a and b. -/
def sampleVector : List UInt8 :=
  littleEndian (userStackAddress+24) 8 ++ littleEndian (userStackAddress+26) 8 ++
    littleEndian 0 8 ++ [0x61,0,0x62,0]

theorem sampleVector_task : (sampleHolding sampleVector).findTask 1=some sampleTask := by
  decide +kernel

theorem sampleVector_vector :
    ExecVector sampleTask.space (sampleHolding sampleVector).machine userStackAddress
      [[0x61],[0x62]] := by
  have hs := sampleHolding_wellKept sampleVector
  have hword (address : Nat) (word : BitVec 64)
      (h : (copyFromUser 1 address 8 (sampleHolding sampleVector)).map
        (fun buffer => packBytes (fun k => buffer.getD k 0))=some word) :
      UserWord sampleTask.space (sampleHolding sampleVector).machine address word := by
    obtain ⟨buffer,hbuffer,hpack⟩ := Option.map_eq_some_iff.mp h
    exact (copyFromUser_word hs sampleVector_task rfl _ _).mp ⟨buffer,hbuffer,hpack⟩
  rw [ExecVector,if_neg (by decide)]
  exact ⟨⟨BitVec.ofNat 64 (userStackAddress+24),by decide,hword _ _ (by decide +kernel),
    userString_of_read hs sampleVector_task rfl (by decide) (by decide +kernel)⟩,
    ⟨BitVec.ofNat 64 (userStackAddress+26),by decide,hword _ _ (by decide +kernel),
      userString_of_read hs sampleVector_task rfl (by decide) (by decide +kernel)⟩,
    hword _ _ (by decide +kernel)⟩

/-- An exec with the sample vector. -/
theorem sampleVector_delivered :
    (syscallExec 1 idleWork (fun _ => some sampleElf) (userStackAddress+24) 1 userStackAddress
        (sampleHolding sampleVector)).1=0 ∧
      ∃ image, Loaded (sampleHolding sampleVector) (syscallExec 1 idleWork
        (fun _ => some sampleElf) (userStackAddress+24) 1 userStackAddress
        (sampleHolding sampleVector)).2 idleWork (some sampleElf) sampleTask [[0x61],[0x62]]
        image := by
  have hload : ∃ image m', createProcessImage idleWork (some sampleElf) []
      (sampleHolding sampleVector).machine=(.ok image,m') := by
    have hok : (createProcessImage idleWork (some sampleElf) []
        (sampleHolding sampleVector).machine).1.isOk=true := by decide +kernel
    generalize createProcessImage idleWork (some sampleElf) [] _ = made at hok ⊢
    obtain ⟨_ | image,m'⟩ := made
    · cases hok
    · exact ⟨image,m',rfl⟩
  obtain ⟨image₀,m₀,hload⟩ := hload
  exact ((exec_arguments_delivered (sampleHolding sampleVector) (sampleHolding_wellKept _) 1
    sampleTask sampleVector_task rfl idleWork (fun _ => some sampleElf) (userStackAddress+24) 1
    userStackAddress).1 [[0x61],[0x62]] sampleVector_vector (by decide) (by decide)).2 [0x61]
    ⟨0,by decide⟩ image₀ m₀ (by decide) (by decide) (by decide +kernel) (by decide +kernel)
    (by decide +kernel) hload

end Exec

section Words

variable {c : UInt8}

/-- The maximal words of a string without spaces. -/
def spaceWords (string : List UInt8) : List (List UInt8) :=
  (string.splitOnP (· == 0x20)).filter (fun word => !word.isEmpty)

variable {rest : List UInt8}

theorem spaceWords_nil : spaceWords []=[] := by
  simp [spaceWords]

theorem spaceWords_space (rest : List UInt8) : spaceWords (0x20 :: rest)=spaceWords rest := by
  simp [spaceWords,splitOnP_cons_eq_if_modifyHead]

theorem spaceWords_dropWhile (rest : List UInt8) :
    spaceWords (rest.dropWhile (· == 0x20))=spaceWords rest := by
  induction rest with
  | nil => rfl
  | cons c cs ih =>
    rw [dropWhile_cons]
    split_ifs with hc
    · rw [ih,eq_of_beq hc,spaceWords_space]
    · rfl

/-- A string that begins with a word. -/
theorem spaceWords_word {cs : List UInt8} (hc : c≠0x20) :
    spaceWords (c :: cs)=(c :: cs).takeWhile (· != 0x20) ::
      spaceWords ((c :: cs).dropWhile (· != 0x20)) := by
  have hword : ∀ x ∈ (c :: cs).takeWhile (· != 0x20), (x == 0x20)=false := by
    intro x hx
    have hne := mem_takeWhile_imp hx
    simpa using hne
  have hsome : ((c :: cs).takeWhile (· != 0x20)).isEmpty=false := by
    simp [hc]
  have hall := takeWhile_append_dropWhile (p := (· != 0x20)) (l := c :: cs)
  generalize (c :: cs).takeWhile (· != 0x20)=word at *
  cases hrest : (c :: cs).dropWhile (· != 0x20) with
  | nil =>
    rw [hrest,append_nil] at hall
    rw [← hall,spaceWords,splitOnP_eq_singleton hword,spaceWords_nil]
    simp [hsome]
  | cons d ds =>
    have hd : d=0x20 := by
      have hfirst := List.head?_dropWhile_not (· != 0x20) (c :: cs)
      rw [hrest] at hfirst
      simpa using hfirst
    rw [hrest,hd] at hall
    rw [← hall,spaceWords,
      splitOnP_append_cons_of_forall_mem hword 0x20 (by rfl),hd,spaceWords_space]
    simp [hsome,spaceWords]

theorem mem_splitOnP {p : UInt8 → Bool} {string word : List UInt8}
    (hw : word ∈ string.splitOnP p) (hc : c ∈ word) : c ∈ string := by
  induction string generalizing word with
  | nil => simp_all
  | cons x xs ih =>
    rw [splitOnP_cons_eq_if_modifyHead] at hw
    split_ifs at hw with hx
    · rcases mem_cons.mp hw with rfl | hw
      · cases hc
      · exact mem_cons_of_mem _ (ih hw hc)
    cases hs : xs.splitOnP p with
    | nil => simp [hs] at hw
    | cons y ys =>
      rw [hs,modifyHead_cons] at hw
      rcases mem_cons.mp hw with rfl | hw
      · rcases mem_cons.mp hc with rfl | hc
        · exact mem_cons_self
        · exact mem_cons_of_mem _ (ih (hs ▸ mem_cons_self) hc)
      · exact mem_cons_of_mem _ (ih (hs ▸ mem_cons_of_mem _ hw) hc)

theorem spaceWords_plain {string : List UInt8} (h : (0 : UInt8) ∉ string) :
    ∀ word ∈ spaceWords string, (0 : UInt8) ∉ word :=
  fun _ hw hc => h (mem_splitOnP (mem_of_mem_filter hw) hc)

/-- A string of fewer than 64 bytes is split into its words, as long as slots are left. -/
theorem splitArguments_words (rounds : Nat) {arguments : List (List UInt8)}
    (hrounds : rest.length≤rounds) (hshort : rest.length<64)
    (hcount : arguments.length≤processMaxArguments) :
    splitArguments rounds rest arguments =
      some ((arguments ++ spaceWords rest).take processMaxArguments) := by
  induction rounds generalizing rest arguments with
  | zero =>
    rw [length_eq_zero_iff.mp (Nat.le_zero.mp hrounds),spaceWords_nil,append_nil,
      take_of_length_le hcount]
    rfl
  | succ rounds ih =>
    rw [splitArguments]
    by_cases hfull : arguments.length ≥ processMaxArguments
    · rw [if_pos (.inr hfull),take_append_of_le_length hfull,take_of_length_le hcount]
    by_cases hnil : rest=[]
    · rw [if_pos (.inl hnil),hnil,spaceWords_nil,append_nil,take_of_length_le hcount]
    rw [if_neg (not_or.mpr ⟨hnil,hfull⟩)]
    dsimp only
    have hdrop := (dropWhile_suffix (· == (0x20 : UInt8)) (l := rest)).length_le
    rw [← spaceWords_dropWhile]
    cases hrest : rest.dropWhile (· == 0x20) with
    | nil => rw [if_pos rfl,spaceWords_nil,append_nil,take_of_length_le hcount]
    | cons c cs =>
      rw [hrest] at hdrop
      have hc : c≠0x20 := by
        have hfirst := List.head?_dropWhile_not (· == (0x20 : UInt8)) rest
        rw [hrest] at hfirst
        simpa using hfirst
      have htake := (List.takeWhile_prefix (· != (0x20 : UInt8)) (l := c::cs)).length_le
      rw [if_neg (cons_ne_nil c cs),if_neg (by omega),spaceWords_word hc]
      have hdropped : ((c::cs).dropWhile (· != 0x20)).length≤cs.length := by
        rw [dropWhile_cons,if_pos (by simpa using hc)]
        exact (dropWhile_suffix _).length_le
      rw [length_cons] at hdrop
      rw [ih (by omega) (by omega) (by rw [length_append,length_singleton]; omega),
        append_assoc,singleton_append]

end Words

section Spawn

variable {s : Kernel} {current : Nat} {t : Task} {address path length argument : Nat}
  {work : LaunchWork} {space : VmmSpace} {m m' : Machine} {arguments : List (List UInt8)}
  {files : List UInt8 → Option (List UInt8)}

/-- What a caller of spawn passes: no string at all, or one in its memory. -/
def SpawnString (space : VmmSpace) (m : Machine) (address : Nat) (string : List UInt8) : Prop :=
  if address=0 then string=[] else UserString space m address string

theorem readArgument_string (hs : WellKept s) (ht : s.findTask current=some t)
    (ho : t.ownsSpace=true) (address : Nat) {room : Nat} {characters string : List UInt8}
    (h : UserString t.space s.machine (address+characters.length) string) :
    readArgument current address s room characters=some (characters ++ string.take room) := by
  induction room generalizing characters string with
  | zero =>
    rw [take_zero,append_nil]
    rfl
  | succ room ih =>
    have hlow : address+characters.length<2 ^ 47 := by
      cases string with
      | nil => exact visibleIn_low h
      | cons c cs => exact visibleIn_low h.2.1
    rw [readArgument,Nat.mod_eq_of_lt (by omega),copyFromUser_one hs ht ho]
    cases string with
    | nil =>
      rw [UserString] at h
      rw [h,take_nil,append_nil]
      rfl
    | cons c cs =>
      obtain ⟨hc,hv,hrest⟩ := h
      rw [hv]
      simp only [Option.map_some]
      have hnext : UserString t.space s.machine (address+(characters ++ [c]).length) cs := by
        rw [length_append,length_singleton,← Nat.add_assoc]
        exact hrest
      rw [if_neg (show ¬ [c].headD 0=0 from hc),headD_cons,ih hnext,append_assoc,
        singleton_append,take_succ_cons]

theorem spawnArgument_string (hs : WellKept s) (ht : s.findTask current=some t)
    (ho : t.ownsSpace=true) {string : List UInt8}
    (h : SpawnString t.space s.machine address string) :
    spawnArgument current address s=some (string.take 63) ∧ (0 : UInt8) ∉ string := by
  rw [SpawnString] at h
  rw [spawnArgument]
  split_ifs at h ⊢ with hnull
  · subst h
    exact ⟨rfl,not_mem_nil⟩
  · exact ⟨readArgument_string hs ht ho address h,h.plain⟩

theorem cString_plain (buffer : List UInt8) : (0 : UInt8) ∉ cString buffer := by
  intro hx
  have hne := mem_takeWhile_imp hx
  simp at hne

/-- A spawn that succeeds starts a task in the space of the image it made. -/
theorem processSpawn_started (hs : WellKept s) {path argument : List UInt8}
    {file : Option (List UInt8)} {result : Int} {s' : Kernel}
    (h : processSpawn current work path argument file s=(result,s')) (hpos : 0≤result) :
    ∃ arguments image m1, splitArguments argument.length argument [path]=some arguments ∧
      createProcessImage work.space file arguments s.machine=(.ok image,m1) ∧
      s'.findTask result.toNat=some ⟨result.toNat,false,image.space,true⟩ ∧
      ∀ a, visibleIn image.space s'.machine a=visibleIn image.space m1 a := by
  rw [processSpawn] at h
  cases hrecord : s.freeProcessRecord with
  | none =>
    rw [hrecord] at h
    cases h
    exact absurd hpos (by decide)
  | some record =>
    cases hsplit : splitArguments argument.length argument [path] with
    | none =>
      simp only [hrecord,hsplit] at h
      cases h
      exact absurd hpos (by decide)
    | some arguments =>
      obtain ⟨made,m1,n1,hm1,-,hmade⟩ := createProcessImage_inStep hs.paired.inStep work.space
        file arguments rfl
      simp only [hrecord,hsplit,hm1] at h
      cases made with
      | error e =>
        cases h
        cases e <;> exact absurd hpos (by decide)
      | ok image =>
        obtain ⟨c,m0,bytes,-,-,hspace,h1,-,-,-,-⟩ := hmade
        obtain ⟨m2,n2,hm2,-,h2,-,hrestored2⟩ := h1.kmalloc work.launch
        obtain ⟨m3,n3,hm3,-,h3,-,hrestored3⟩ := h2.kmalloc work.task
        have hr : image.space.pml4Physical/4096 ∈
            insert c (ownedRoots s.tasks).toFinset := by
          rw [hspace,Nat.mul_div_cancel _ (by omega)]
          exact Finset.mem_insert_self _ _
        simp only [hm2] at h
        cases hok : work.launch.ok with
        | false =>
          simp only [hok] at h
          cases h
          exact absurd hpos (by decide)
        | true =>
          simp only [hok,taskCreateInSpace,setMachine_machine,hm3] at h
          cases hok' : work.task.ok with
          | false =>
            simp only [hok'] at h
            cases h
            exact absurd hpos (by decide)
          | true =>
            simp only [hok'] at h
            cases h
            refine ⟨arguments,image,m1,rfl,hm1,?_,fun a => ?_⟩
            · have hfresh : s.tasks.find? (fun t => t.id == s.nextTaskId)=none := by
                rw [List.find?_eq_none]
                intro u hu
                have hlt := hs.book.fresh u hu
                simp only [beq_iff_eq]
                omega
              show (s.tasks ++ [_]).find? (fun (t : Task) => t.id == s.nextTaskId)=_
              rw [List.find?_append,hfresh,hspace]
              simp
              rfl
            · show visibleIn image.space m3 a=_
              rw [visibleIn_eq h3 hr,visibleIn_eq h1 hr]
              split_ifs with ha
              · rw [userByte,userByte,hrestored3.pages hr (vpn_lt ha),
                  hrestored2.pages hr (vpn_lt ha)]
              · rfl

/-- `SYSCALL_SPAWN` passes what its two buffers hold. -/
theorem syscallSpawn_started (hs : WellKept s)
    {buffer characters : List UInt8}
    (hpath : copyFromUser current path length s=some buffer)
    (hargument : spawnArgument current argument s=some characters)
    (hsplit : splitArguments characters.length characters [cString buffer]=some arguments)
    (hplain : ∀ a ∈ arguments, (0 : UInt8) ∉ a)
    (hpos : 0≤(syscallSpawn current work files path length argument s).1) :
    ∃ image, Loaded s (syscallSpawn current work files path length argument s).2 work.space
      (files (cString buffer)) ⟨(syscallSpawn current work files path length argument s).1.toNat,
        false,image.space,true⟩ arguments image := by
  rw [syscallSpawn] at hpos ⊢
  split_ifs at hpos ⊢ with hlong
  · have hbad : ¬ (0 : Int) ≤ syscallEinval := by decide
    exact absurd hpos hbad
  simp only [hpath,hargument] at hpos ⊢
  obtain ⟨result,s',h⟩ : ∃ result s', processSpawn current work (cString buffer) characters
      (files (cString buffer)) s=(result,s') := ⟨_,_,rfl⟩
  rw [h] at hpos ⊢
  obtain ⟨arguments',image,m1,hsplit',himage,htask,hvisible⟩ := processSpawn_started hs h hpos
  rw [hsplit] at hsplit'
  cases hsplit'
  obtain ⟨hargc,pointers,hstack⟩ := createProcessImage_argumentStack hs himage hplain
  exact ⟨image,by rw [himage],htask,hargc,pointers,hstack.congr hvisible⟩

/-- A spawn that fails starts nothing. -/
theorem syscallSpawn_failed (hs : WellKept s)
    (hneg : (syscallSpawn current work files path length argument s).1<0) :
    Failed s (syscallSpawn current work files path length argument s).2 := by
  have hsame : Failed s s := ⟨s.machine,rfl,Restored.refl _ _⟩
  rw [syscallSpawn] at hneg ⊢
  split_ifs at hneg ⊢ with hlong
  · exact hsame
  cases hpath : copyFromUser current path length s with
  | none => exact hsame
  | some buffer =>
    cases hargument : spawnArgument current argument s with
    | none => exact hsame
    | some characters =>
      obtain ⟨result,s',n',h,-,-,hrestored⟩ := hs.paired.processSpawn current work
        (cString buffer) characters (files (cString buffer)) rfl
      simp only [hpath,hargument,h] at hneg ⊢
      rcases processSpawn_cases current work (cString buffer) characters (files (cString buffer)) s
        with ⟨e,m,-,heq⟩ | ⟨i,r,m,space,-,-,-,-,-,-,heq⟩
      · rw [h] at heq
        cases heq
        exact ⟨m,rfl,hrestored⟩
      · rw [h] at heq
        cases heq
        omega

/-- The words that fit the buffer of `SYSCALL_SPAWN` and the slots behind the path. -/
def passedWords (string : List UInt8) : List (List UInt8) := (spaceWords (string.take 63)).take 15

/-- A `SYSCALL_SPAWN` that succeeds passes the path and every word of its argument string iff
they are the words of the first 63 bytes and at most 15; one that fails starts nothing. -/
theorem spawn_passes_words (s : Kernel) (hs : WellKept s) (current : Nat) (t : Task)
    (ht : s.findTask current=some t) (ho : t.ownsSpace=true) (work : LaunchWork)
    (files : List UInt8 → Option (List UInt8)) (path length argument : Nat)
    (string : List UInt8) (hstring : SpawnString t.space s.machine argument string) :
    let r := syscallSpawn current work files path length argument s
    (∀ buffer, copyFromUser current path length s=some buffer → 0≤r.1 →
      ∃ image, Loaded s r.2 work.space (files (cString buffer))
          ⟨r.1.toNat,false,image.space,true⟩ (cString buffer :: passedWords string) image ∧
        ((image.argc=(cString buffer :: spaceWords string).length ∧
          ∃ pointers, ArgumentStack image.space r.2.machine image.argv
            (cString buffer :: spaceWords string) pointers) ↔
          spaceWords string=passedWords string)) ∧
    (r.1<0 → Failed s r.2) := by
  obtain ⟨hargument,hplain⟩ := spawnArgument_string hs ht ho hstring
  refine ⟨fun buffer hpath hpos => ?_,syscallSpawn_failed hs⟩
  have hsplit : splitArguments (string.take 63).length (string.take 63) [cString buffer] =
      some (cString buffer :: passedWords string) :=
    splitArguments_words _ le_rfl (by rw [length_take]; omega) (Nat.le_add_left 1 15)
  obtain ⟨image,hloaded⟩ := syscallSpawn_started hs hpath hargument hsplit (fun a ha => by
    rcases mem_cons.mp ha with rfl | ha
    · exact cString_plain buffer
    · exact spaceWords_plain (fun hx => hplain (mem_of_mem_take hx)) a (mem_of_mem_take ha)) hpos
  refine ⟨image,hloaded,?_,fun hall => hall ▸ ⟨hloaded.argc,hloaded.argv⟩⟩
  rintro ⟨hargc,pointers,hstack⟩
  obtain ⟨pointers',hstack'⟩ := hloaded.argv
  exact (List.cons.inj (hstack.unique hstack' (hargc.symm.trans hloaded.argc))).2

/-- A spawn with one word for an argument. -/
theorem one_word_passed :
    ∃ image, Loaded (sampleHolding [0x61,0])
      (syscallSpawn 1 idleLaunch (fun _ => some sampleElf) userStackAddress 1 userStackAddress
        (sampleHolding [0x61,0])).2 idleWork (some sampleElf) ⟨2,false,image.space,true⟩
      ([0x61] :: spaceWords [0x61]) image := by
  have hs := sampleHolding_wellKept [0x61,0]
  have ht : (sampleHolding [0x61,0]).findTask 1=some sampleTask := by decide +kernel
  have hstring : SpawnString sampleTask.space (sampleHolding [0x61,0]).machine userStackAddress
      [0x61] := by
    rw [SpawnString,if_neg (by decide)]
    exact userString_of_read hs ht rfl (by decide) (by decide +kernel)
  have hpid : (syscallSpawn 1 idleLaunch (fun _ => some sampleElf) userStackAddress 1
      userStackAddress (sampleHolding [0x61,0])).1=2 := by decide +kernel
  obtain ⟨image,hloaded,-⟩ := (spawn_passes_words (sampleHolding [0x61,0]) hs 1 sampleTask ht rfl
    idleLaunch (fun _ => some sampleElf) userStackAddress 1 userStackAddress [0x61] hstring).1
    [0x61] (by decide +kernel) (by rw [hpid]; decide)
  rw [hpid] at hloaded
  exact ⟨image,hloaded⟩

def sixteenWords : List UInt8 := (List.replicate 15 [0x61,0x20]).flatten ++ [0x61]

/-- Of sixteen words the last one is lost: the spawn succeeds without it. -/
theorem sixteenth_word_lost :
    SpawnString sampleTask.space (sampleHolding (sixteenWords ++ [0])).machine userStackAddress
        sixteenWords ∧
      (∃ image, Loaded (sampleHolding (sixteenWords ++ [0]))
        (syscallSpawn 1 idleLaunch (fun _ => some sampleElf) userStackAddress 1 userStackAddress
          (sampleHolding (sixteenWords ++ [0]))).2 idleWork (some sampleElf)
        ⟨2,false,image.space,true⟩ ([0x61] :: List.replicate 15 [0x61]) image) ∧
      spaceWords sixteenWords=List.replicate 16 [0x61] := by
  have hs := sampleHolding_wellKept (sixteenWords ++ [0])
  have ht : (sampleHolding (sixteenWords ++ [0])).findTask 1=some sampleTask := by
    decide +kernel
  have hpid : (syscallSpawn 1 idleLaunch (fun _ => some sampleElf) userStackAddress 1
      userStackAddress (sampleHolding (sixteenWords ++ [0]))).1=2 := by decide +kernel
  refine ⟨?_,?_,by decide +kernel⟩
  · rw [SpawnString,if_neg (by decide)]
    exact userString_of_read hs ht rfl (by decide) (by decide +kernel)
  have hpath : copyFromUser 1 userStackAddress 1 (sampleHolding (sixteenWords ++ [0])) =
      some [0x61] := by decide +kernel
  have hargument : spawnArgument 1 userStackAddress (sampleHolding (sixteenWords ++ [0])) =
      some sixteenWords := by decide +kernel
  have hsplit : splitArguments sixteenWords.length sixteenWords [cString [0x61]] =
      some ([0x61] :: List.replicate 15 [0x61]) := by decide +kernel
  have hpos : 0≤(syscallSpawn 1 idleLaunch (fun _ => some sampleElf) userStackAddress 1
      userStackAddress (sampleHolding (sixteenWords ++ [0]))).1 := by
    rw [hpid]
    decide
  have hstarted := syscallSpawn_started hs hpath hargument hsplit (by decide) hpos
  rw [hpid] at hstarted
  exact hstarted

end Spawn

end ConeOS.Process
