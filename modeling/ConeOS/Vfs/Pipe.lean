import ConeOS.Vfs.Descriptor

namespace ConeOS.Vfs

open ConeOS.Library List

/-- The copying loop of `pipe_read`; `count` is taken down once, after it. -/
def takeBytes : Nat → VfsPipe → List UInt8 × VfsPipe
  | 0, p => ([],p)
  | n+1, p =>
    let rest := takeBytes n { p with head := (p.head+1)%vfsPipeCapacity }
    (p.data p.head :: rest.1, rest.2)

/-- The copying loop of `pipe_write`. -/
def putBytes : List UInt8 → VfsPipe → VfsPipe
  | [], p => p
  | x :: xs, p =>
    putBytes xs { p with
      data := Function.update p.data p.tail x, tail := (p.tail+1)%vfsPipeCapacity }

inductive ReadStep
  | took (bytes : List UInt8)
  | endOfFile
  | wait
  deriving DecidableEq, Repr

inductive WriteStep
  | noReader
  | put (bytes : List UInt8)
  | wait
  deriving DecidableEq, Repr

/-- The interrupt-locked section of `pipe_read`. -/
def readSection (length : Nat) (p : VfsPipe) : ReadStep × VfsPipe :=
  if p.count≠0 then
    let count := if p.count<length then p.count else length
    let r := takeBytes count p
    (.took r.1, { r.2 with count := r.2.count-count })
  else if p.writers=0 then (.endOfFile,p)
  else (.wait,p)

/-- The interrupt-locked section of `pipe_write`, `total` bytes of the buffer being in
the pipe already. -/
def writeSection (buffer : List UInt8) (total : Nat) (p : VfsPipe) : WriteStep × VfsPipe :=
  if p.readers=0 then (.noReader,p)
  else
    let available := vfsPipeCapacity-p.count
    let amount := buffer.length-total
    let amount := if amount > available then available else amount
    let bytes := (buffer.drop total).take amount
    let q := putBytes bytes p
    let q := { q with count := q.count+amount }
    if amount≠0 then (.put bytes,q) else (.wait,q)

def pipeReaderShouldWait (p : VfsPipe) : Bool :=
  p.used && p.count == 0 && p.writers != 0

def pipeWriterShouldWait (p : VfsPipe) : Bool :=
  p.used && p.count == vfsPipeCapacity && p.readers != 0

/-- The ring discipline of a pipe. -/
structure RingInv (p : VfsPipe) : Prop where
  head : p.head<vfsPipeCapacity
  count : p.count≤vfsPipeCapacity
  tail : p.tail=(p.head+p.count)%vfsPipeCapacity

/-- The bytes waiting in a pipe, oldest first. -/
def buffered (p : VfsPipe) : List UInt8 :=
  ringContents vfsPipeCapacity p.data p.head p.count

section Loops

theorem capacity_pos : 0<vfsPipeCapacity := by decide

theorem takeBytes_spec (n : Nat) (p : VfsPipe) (hh : p.head<vfsPipeCapacity) (m : Nat) :
    ringContents vfsPipeCapacity p.data p.head (n+m)=(takeBytes n p).1 ++
        ringContents vfsPipeCapacity p.data ((p.head+n)%vfsPipeCapacity) m ∧
      (takeBytes n p).2 = { p with head := (p.head+n)%vfsPipeCapacity } := by
  induction n generalizing p with
  | zero =>
    have hmod : p.head%vfsPipeCapacity=p.head := Nat.mod_eq_of_lt hh
    simp only [takeBytes,Nat.add_zero,Nat.zero_add,hmod,nil_append,and_self]
  | succ n ih =>
    have hnext : (p.head+1)%vfsPipeCapacity<vfsPipeCapacity :=
      Nat.mod_lt _ capacity_pos
    have hsum : ((p.head+1)%vfsPipeCapacity+n)%vfsPipeCapacity =
        (p.head+(n+1))%vfsPipeCapacity := by
      rw [Nat.mod_add_mod]
      congr 1
      omega
    obtain ⟨hring,hpipe⟩ := ih { p with head := (p.head+1)%vfsPipeCapacity } hnext
    dsimp only at hring hpipe
    rw [hsum] at hring hpipe
    constructor
    · rw [Nat.add_right_comm,ringContents_pop _ _ _ hh,hring]
      rfl
    · exact hpipe

theorem putBytes_spec (xs : List UInt8) (p : VfsPipe) (count : Nat)
    (ht : p.tail=(p.head+count)%vfsPipeCapacity)
    (hfit : count+xs.length≤vfsPipeCapacity) :
    ringContents vfsPipeCapacity (putBytes xs p).data p.head (count+xs.length) =
        ringContents vfsPipeCapacity p.data p.head count ++ xs ∧
      putBytes xs p = { p with
        data := (putBytes xs p).data
        tail := (p.head+(count+xs.length))%vfsPipeCapacity } := by
  induction xs generalizing p count with
  | nil => simp [putBytes,← ht]
  | cons x xs ih =>
    simp only [length_cons] at hfit ⊢
    have hroom : count<vfsPipeCapacity := by omega
    have hpush := ringContents_push p.data p.head count x hroom
    rw [← ht] at hpush
    have hnext : (p.tail+1)%vfsPipeCapacity=(p.head+(count+1))%vfsPipeCapacity := by
      rw [ht,Nat.mod_add_mod,Nat.add_assoc]
    obtain ⟨hring,hpipe⟩ := ih { p with
        data := Function.update p.data p.tail x
        tail := (p.tail+1)%vfsPipeCapacity } (count+1) hnext (by omega)
    dsimp only at hring hpipe
    rw [Nat.add_right_comm count 1] at hring hpipe
    constructor
    · rw [putBytes,← Nat.add_assoc,hring,hpush]
      simp
    · rw [putBytes,← Nat.add_assoc count]
      exact hpipe

end Loops

section Sections

variable {p : VfsPipe}

theorem readSection_ends (length : Nat) (p : VfsPipe) (hh : p.head<vfsPipeCapacity) :
    (readSection length p).2.used=p.used ∧ (readSection length p).2.readers=p.readers ∧
      (readSection length p).2.writers=p.writers := by
  unfold readSection
  split_ifs
  · simp [(takeBytes_spec _ p hh 0).2]
  · simp [(takeBytes_spec _ p hh 0).2]
  · exact ⟨rfl,rfl,rfl⟩
  · exact ⟨rfl,rfl,rfl⟩

/-- Reading takes the bytes it delivers off the front of the buffered ones. -/
theorem readSection_took (inv : RingInv p) {length : Nat} {bytes : List UInt8}
    (h : (readSection length p).1 = .took bytes) :
    RingInv (readSection length p).2 ∧ buffered p=bytes ++ buffered (readSection length p).2 ∧
      p.count≠0 ∧ bytes.length=min p.count length := by
  by_cases h0 : p.count=0
  · by_cases hw : p.writers=0
    · simp [readSection,h0,hw] at h
    · simp [readSection,h0,hw] at h
  generalize hn : (if p.count<length then p.count else length)=n
  have hmin : n=min p.count length := by
    rw [← hn]
    split_ifs <;> omega
  have hle : n≤p.count := by omega
  have hspec := takeBytes_spec n p inv.head (p.count-n)
  rw [Nat.add_sub_cancel' hle] at hspec
  obtain ⟨hring,hpipe⟩ := hspec
  simp only [readSection,h0,ne_eq,not_false_eq_true,if_true,hn,hpipe] at h ⊢
  have hbytes : (takeBytes n p).1=bytes := ReadStep.took.inj h
  rw [hbytes] at hring
  have hlen := congrArg List.length hring
  simp only [ringContents_length,length_append] at hlen
  refine ⟨⟨Nat.mod_lt _ capacity_pos,?_,?_⟩,hring,trivial,by omega⟩
  · have := inv.count
    show p.count-n≤_
    omega
  show p.tail=((p.head+n)%vfsPipeCapacity+(p.count-n))%vfsPipeCapacity
  rw [inv.tail,Nat.mod_add_mod]
  congr 1
  omega

theorem readSection_still (length : Nat)
    (h : ∀ bytes, (readSection length p).1 ≠ .took bytes) : (readSection length p).2=p := by
  unfold readSection at h ⊢
  split_ifs at h ⊢
  · exact absurd rfl (h _)
  · exact absurd rfl (h _)
  · rfl
  · rfl

theorem readSection_endOfFile {length : Nat} (h : (readSection length p).1 = .endOfFile) :
    p.count=0 ∧ p.writers=0 := by
  by_cases h0 : p.count=0
  · by_cases hw : p.writers=0
    · exact ⟨h0,hw⟩
    · simp [readSection,h0,hw] at h
  · simp [readSection,h0] at h

/-- What every write section leaves: a ring with the bytes it put, if any, at its end. -/
theorem writeSection_spec (inv : RingInv p) (buffer : List UInt8) (total : Nat) :
    RingInv (writeSection buffer total p).2 ∧
      buffered (writeSection buffer total p).2=buffered p ++
        (match (writeSection buffer total p).1 with
          | .put bytes => bytes
          | _ => []) ∧
      (writeSection buffer total p).2.used=p.used ∧
      (writeSection buffer total p).2.readers=p.readers ∧
      (writeSection buffer total p).2.writers=p.writers := by
  by_cases hr : p.readers=0
  · simp only [writeSection,hr,if_true,append_nil]
    exact ⟨inv,trivial,trivial,trivial,trivial⟩
  have hcount := inv.count
  generalize ha : (if buffer.length-total > vfsPipeCapacity-p.count then
    vfsPipeCapacity-p.count else buffer.length-total)=amount
  have hle : amount≤vfsPipeCapacity-p.count ∧ amount≤buffer.length-total := by
    rw [← ha]
    split_ifs <;> omega
  have hlen : ((buffer.drop total).take amount).length=amount := by
    rw [length_take,length_drop]
    omega
  obtain ⟨hring,hpipe⟩ := putBytes_spec ((buffer.drop total).take amount) p p.count inv.tail
    (by omega)
  rw [hlen] at hring hpipe
  have hq : RingInv { putBytes ((buffer.drop total).take amount) p with
      count := (putBytes ((buffer.drop total).take amount) p).count+amount } := by
    rw [hpipe]
    exact ⟨inv.head,by show p.count+amount≤_; omega,rfl⟩
  have hends : (putBytes ((buffer.drop total).take amount) p).head=p.head ∧
      (putBytes ((buffer.drop total).take amount) p).count=p.count ∧
      (putBytes ((buffer.drop total).take amount) p).used=p.used ∧
      (putBytes ((buffer.drop total).take amount) p).readers=p.readers ∧
      (putBytes ((buffer.drop total).take amount) p).writers=p.writers := by
    rw [hpipe]
    exact ⟨rfl,rfl,rfl,rfl,rfl⟩
  obtain ⟨hhead,hcnt,hused,hreaders,hwriters⟩ := hends
  simp only [writeSection,hr,if_false,ha]
  by_cases h0 : amount=0
  · subst h0
    refine ⟨?_,?_,?_⟩
    · simpa using hq
    · simp [buffered,putBytes]
    · simpa using ⟨hused,hreaders,hwriters⟩
  · simp only [h0,ne_eq,not_false_eq_true,if_true]
    refine ⟨hq,?_,hused,hreaders,hwriters⟩
    simpa only [buffered,hhead,hcnt] using hring

theorem writeSection_put {buffer bytes : List UInt8} {total : Nat}
    (h : (writeSection buffer total p).1 = .put bytes) : p.readers≠0 := by
  intro hr
  simp [writeSection,hr] at h

theorem writeSection_still (buffer : List UInt8) (total : Nat)
    (h : ∀ bytes, (writeSection buffer total p).1 ≠ .put bytes) :
    (writeSection buffer total p).2=p := by
  unfold writeSection at h ⊢
  dsimp only at h ⊢
  split_ifs at h ⊢ with hr hfit hput hput
  · rfl
  · exact absurd rfl (h _)
  · have hzero : vfsPipeCapacity-p.count=0 := by omega
    rw [hzero]
    rfl
  · exact absurd rfl (h _)
  · have hzero : buffer.length-total=0 := by omega
    rw [hzero]
    rfl

end Sections

end ConeOS.Vfs
