import ConeOS.Memory.PageTable

namespace ConeOS.Memory

open ConeOS.Library

section Bits

variable (e : BitVec 64)

theorem present_bit : present e=e.getLsbD 0 := hasFlag_twoPow e 0 (by decide)
theorem writable_bit : hasFlag e vmmWritable=e.getLsbD 1 := hasFlag_twoPow e 1 (by decide)
theorem user_bit : hasFlag e vmmUser=e.getLsbD 2 := hasFlag_twoPow e 2 (by decide)
theorem huge_bit : huge e=e.getLsbD 7 := hasFlag_twoPow e 7 (by decide)
theorem copyOnWrite_bit : hasFlag e vmmCopyOnWrite=e.getLsbD 9 :=
  hasFlag_twoPow e 9 (by decide)
theorem noExecute_bit : hasFlag e vmmNoExecute=e.getLsbD 63 := hasFlag_twoPow e 63 (by decide)

theorem twoPow_bit {i : Nat} (hi : i<64) (k : Nat) :
    (BitVec.twoPow 64 i).getLsbD k=decide (k=i) := by
  rw [BitVec.getLsbD_twoPow]
  simp [hi,eq_comm]

theorem vmmPresent_bit (k : Nat) : vmmPresent.getLsbD k=decide (k=0) := twoPow_bit (by decide) k
theorem vmmWritable_bit (k : Nat) : vmmWritable.getLsbD k=decide (k=1) :=
  twoPow_bit (by decide) k
theorem vmmUser_bit (k : Nat) : vmmUser.getLsbD k=decide (k=2) := twoPow_bit (by decide) k
theorem vmmWriteThrough_bit (k : Nat) : vmmWriteThrough.getLsbD k=decide (k=3) :=
  twoPow_bit (by decide) k
theorem vmmCacheDisable_bit (k : Nat) : vmmCacheDisable.getLsbD k=decide (k=4) :=
  twoPow_bit (by decide) k
theorem vmmCopyOnWrite_bit (k : Nat) : vmmCopyOnWrite.getLsbD k=decide (k=9) :=
  twoPow_bit (by decide) k
theorem vmmNoExecute_bit (k : Nat) : vmmNoExecute.getLsbD k=decide (k=63) :=
  twoPow_bit (by decide) k

theorem flagsOnly_iff (f : BitVec 64) :
    FlagsOnly f ↔ ∀ i, 12 ≤ i → i<52 → f.getLsbD i=false := by
  constructor
  · intro h i h1 h2
    have hbit := congrArg (fun w : BitVec 64 => w.getLsbD i) h
    simpa [BitVec.getLsbD_and,addressMask_bit i (by omega),h1,h2] using hbit
  intro h
  apply BitVec.eq_of_getLsbD_eq
  intro i hi
  rw [BitVec.getLsbD_and,addressMask_bit i hi]
  by_cases hmid : 12 ≤ i ∧ i<52
  · simp [h i hmid.1 hmid.2]
  · simp [hmid]

theorem addressPage_of_bits {e e' : BitVec 64}
    (h : ∀ i, 12 ≤ i → i<52 → e'.getLsbD i=e.getLsbD i) : addressPage e'=addressPage e := by
  apply addressPage_congr
  apply BitVec.eq_of_getLsbD_eq
  intro i hi
  rw [BitVec.getLsbD_and,BitVec.getLsbD_and,addressMask_bit i hi]
  by_cases hmid : 12 ≤ i ∧ i<52
  · rw [h i hmid.1 hmid.2]
  · simp [hmid]

theorem tableEntry_bit {page k : Nat} (f : BitVec 64) (hp : page<2 ^ 40)
    (hk : k<12 ∨ 52≤k) : (tableEntry page f).getLsbD k=f.getLsbD k :=
  make_bit hp hk

theorem tableEntry_page {page : Nat} {f : BitVec 64} (hp : page<2 ^ 40)
    (hf : ∀ i, 12 ≤ i → i<52 → f.getLsbD i=false) : addressPage (tableEntry page f)=page :=
  addressPage_make hp ((flagsOnly_iff f).mpr hf)

end Bits

/-- The flags of a well-formed entry that points to a table. -/
structure TableEntry (e : BitVec 64) : Prop where
  writable : hasFlag e vmmWritable=true
  user : hasFlag e vmmUser=true
  notHuge : huge e=false
  executes : hasFlag e vmmNoExecute=false

/-- What the walks of the kernel tell apart in a leaf. -/
structure LeafFlags (e : BitVec 64) (user writable cow noExecute : Bool) : Prop where
  present : present e=true
  user : hasFlag e vmmUser=user
  writable : hasFlag e vmmWritable=writable
  cow : hasFlag e vmmCopyOnWrite=cow
  noExecute : hasFlag e vmmNoExecute=noExecute

section Made

theorem newTable_entry {page : Nat} {flags : BitVec 64} (hp : page<2 ^ 40)
    (hu : hasFlag flags vmmUser=true) :
    let e := tableEntry page (vmmPresent ||| vmmWritable ||| (flags &&& vmmUser))
    present e=true ∧ TableEntry e ∧ addressPage e=page := by
  rw [user_bit] at hu
  have hbit (k : Nat) : (vmmPresent ||| vmmWritable ||| (flags &&& vmmUser)).getLsbD k =
      (decide (k=0) || decide (k=1) || (flags.getLsbD k && decide (k=2))) := by
    simp only [BitVec.getLsbD_or,BitVec.getLsbD_and,vmmPresent_bit,vmmWritable_bit,vmmUser_bit]
  refine ⟨?_,⟨?_,?_,?_,?_⟩,?_⟩
  · rw [present_bit,tableEntry_bit _ hp (by omega),hbit]
    simp
  · rw [writable_bit,tableEntry_bit _ hp (by omega),hbit]
    simp
  · rw [user_bit,tableEntry_bit _ hp (by omega),hbit,hu]
    simp
  · rw [huge_bit,tableEntry_bit _ hp (by omega),hbit]
    simp
  · rw [noExecute_bit,tableEntry_bit _ hp (by omega),hbit]
    simp
  apply tableEntry_page hp
  intro i h1 h2
  rw [hbit]
  have h0 : i≠0 := by omega
  have h1 : i≠1 := by omega
  have h2 : i≠2 := by omega
  simp [h0,h1,h2]

theorem leafFlags_bit (k : Nat) : leafFlags.getLsbD k =
    (decide (k=1) || decide (k=2) || decide (k=3) || decide (k=4) || decide (k=63) ||
      decide (k=9)) := by
  simp only [leafFlags,BitVec.getLsbD_or,vmmWritable_bit,vmmUser_bit,vmmWriteThrough_bit,
    vmmCacheDisable_bit,vmmNoExecute_bit,vmmCopyOnWrite_bit]

theorem newLeaf_entry {page : Nat} (flags : BitVec 64) (hp : page<2 ^ 40) :
    let e := tableEntry page (vmmPresent ||| (flags &&& leafFlags))
    LeafFlags e (hasFlag flags vmmUser) (hasFlag flags vmmWritable)
      (hasFlag flags vmmCopyOnWrite) (hasFlag flags vmmNoExecute) ∧ addressPage e=page := by
  have hbit (k : Nat) : (vmmPresent ||| (flags &&& leafFlags)).getLsbD k =
      (decide (k=0) || (flags.getLsbD k && leafFlags.getLsbD k)) := by
    simp only [BitVec.getLsbD_or,BitVec.getLsbD_and,vmmPresent_bit]
  refine ⟨⟨?_,?_,?_,?_,?_⟩,?_⟩
  · rw [present_bit,tableEntry_bit _ hp (by omega),hbit]
    simp
  · rw [user_bit,user_bit,tableEntry_bit _ hp (by omega),hbit,leafFlags_bit]
    simp
  · rw [writable_bit,writable_bit,tableEntry_bit _ hp (by omega),hbit,leafFlags_bit]
    simp
  · rw [copyOnWrite_bit,copyOnWrite_bit,tableEntry_bit _ hp (by omega),hbit,leafFlags_bit]
    simp
  · rw [noExecute_bit,noExecute_bit,tableEntry_bit _ hp (by omega),hbit,leafFlags_bit]
    simp
  apply tableEntry_page hp
  intro i h1 h2
  rw [hbit,leafFlags_bit]
  have hne : i≠0 ∧ i≠1 ∧ i≠2 ∧ i≠3 ∧ i≠4 ∧ i≠9 ∧ i≠63 := by omega
  simp [hne]

/-- `(e | VMM_WRITABLE) & ~VMM_COPY_ON_WRITE`. -/
theorem madeWritable (e : BitVec 64) :
    let e' := (e ||| vmmWritable) &&& ~~~vmmCopyOnWrite
    (present e=true → LeafFlags e' (hasFlag e vmmUser) true false (hasFlag e vmmNoExecute)) ∧
      addressPage e'=addressPage e := by
  have hbit (k : Nat) (hk : k<64) : ((e ||| vmmWritable) &&& ~~~vmmCopyOnWrite).getLsbD k =
      ((e.getLsbD k || decide (k=1)) && !decide (k=9)) := by
    simp only [BitVec.getLsbD_or,BitVec.getLsbD_and,BitVec.getLsbD_not,vmmWritable_bit,
      vmmCopyOnWrite_bit,hk,decide_true,Bool.true_and]
  refine ⟨fun hp => ⟨?_,?_,?_,?_,?_⟩,?_⟩
  · rw [present_bit] at hp ⊢
    rw [hbit 0 (by omega),hp]
    rfl
  · rw [user_bit,user_bit,hbit 2 (by omega)]
    simp
  · rw [writable_bit,hbit 1 (by omega)]
    simp
  · rw [copyOnWrite_bit,hbit 9 (by omega)]
    simp
  · rw [noExecute_bit,noExecute_bit,hbit 63 (by omega)]
    simp
  apply addressPage_of_bits
  intro i h1 h2
  rw [hbit i (by omega)]
  have h1 : i≠1 := by omega
  have h9 : i≠9 := by omega
  simp [h1,h9]

/-- `(e & ~VMM_WRITABLE) | VMM_COPY_ON_WRITE`. -/
theorem madeShared (e : BitVec 64) :
    let e' := (e &&& ~~~vmmWritable) ||| vmmCopyOnWrite
    (present e=true → LeafFlags e' (hasFlag e vmmUser) false true (hasFlag e vmmNoExecute)) ∧
      addressPage e'=addressPage e := by
  have hbit (k : Nat) (hk : k<64) : ((e &&& ~~~vmmWritable) ||| vmmCopyOnWrite).getLsbD k =
      ((e.getLsbD k && !decide (k=1)) || decide (k=9)) := by
    simp only [BitVec.getLsbD_or,BitVec.getLsbD_and,BitVec.getLsbD_not,vmmWritable_bit,
      vmmCopyOnWrite_bit,hk,decide_true,Bool.true_and]
  refine ⟨fun hp => ⟨?_,?_,?_,?_,?_⟩,?_⟩
  · rw [present_bit] at hp ⊢
    rw [hbit 0 (by omega),hp]
    rfl
  · rw [user_bit,user_bit,hbit 2 (by omega)]
    simp
  · rw [writable_bit,hbit 1 (by omega)]
    simp
  · rw [copyOnWrite_bit,hbit 9 (by omega)]
    simp
  · rw [noExecute_bit,noExecute_bit,hbit 63 (by omega)]
    simp
  apply addressPage_of_bits
  intro i h1 h2
  rw [hbit i (by omega)]
  have h1 : i≠1 := by omega
  have h9 : i≠9 := by omega
  simp [h1,h9]

/-- The entry of a private copy: another page under the same flags. -/
theorem movedEntry {page : Nat} (e : BitVec 64) (hp : page<2 ^ 40) :
    let e' := tableEntry page (e &&& ~~~addressMask)
    present e'=present e ∧ hasFlag e' vmmUser=hasFlag e vmmUser ∧
      hasFlag e' vmmNoExecute=hasFlag e vmmNoExecute ∧ addressPage e'=page := by
  have hbit (k : Nat) (hk : k<64) : (e &&& ~~~addressMask).getLsbD k =
      (e.getLsbD k && !decide (12≤k ∧ k<52)) := by
    simp only [BitVec.getLsbD_and,BitVec.getLsbD_not,addressMask_bit k hk,hk,decide_true,
      Bool.true_and]
  refine ⟨?_,?_,?_,?_⟩
  · rw [present_bit,present_bit,tableEntry_bit _ hp (by omega),hbit 0 (by omega)]
    simp
  · rw [user_bit,user_bit,tableEntry_bit _ hp (by omega),hbit 2 (by omega)]
    simp
  · rw [noExecute_bit,noExecute_bit,tableEntry_bit _ hp (by omega),hbit 63 (by omega)]
    simp
  apply tableEntry_page hp
  intro i h1 h2
  rw [hbit i (by omega)]
  simp [h1,h2]

theorem cowFlags_flags (e : BitVec 64) :
    hasFlag (cowFlags e) vmmUser=hasFlag e vmmUser ∧
      hasFlag (cowFlags e) vmmWritable=false ∧
      hasFlag (cowFlags e) vmmCopyOnWrite =
        (hasFlag e vmmWritable || hasFlag e vmmCopyOnWrite) ∧
      hasFlag (cowFlags e) vmmNoExecute=hasFlag e vmmNoExecute := by
  have hkept (k : Nat) :
      (e &&& (vmmWritable ||| vmmUser ||| vmmNoExecute ||| vmmCopyOnWrite)).getLsbD k =
        (e.getLsbD k && (decide (k=1) || decide (k=2) || decide (k=63) ||
          decide (k=9))) := by
    simp only [BitVec.getLsbD_or,BitVec.getLsbD_and,vmmWritable_bit,vmmUser_bit,
      vmmNoExecute_bit,vmmCopyOnWrite_bit]
  have hbit (k : Nat) (hk : k<64) : (cowFlags e).getLsbD k =
      ((e.getLsbD k && (decide (k=2) || decide (k=63) || decide (k=9))) ||
        (e.getLsbD 1 && decide (k=9))) := by
    unfold cowFlags
    dsimp only
    rw [writable_bit,hkept 1]
    cases h1 : e.getLsbD 1
    · rw [if_neg (by simp),hkept k]
      by_cases hk1 : k=1
      · subst hk1
        rw [h1]
        rfl
      · simp [hk1]
    rw [if_pos (by simp),BitVec.getLsbD_or,BitVec.getLsbD_and,BitVec.getLsbD_not,hkept k,
      vmmWritable_bit,vmmCopyOnWrite_bit]
    by_cases hk1 : k=1
    · subst hk1
      simp
    · simp [hk1,hk]
  refine ⟨?_,?_,?_,?_⟩
  · rw [user_bit,user_bit,hbit 2 (by omega)]
    simp
  · rw [writable_bit,hbit 1 (by omega)]
    simp
  · rw [copyOnWrite_bit,copyOnWrite_bit,writable_bit,hbit 9 (by omega)]
    simp [Bool.or_comm]
  · rw [noExecute_bit,noExecute_bit,hbit 63 (by omega)]
    simp

end Made

end ConeOS.Memory
