import ConeOS.Vfs.Duplicate

namespace ConeOS.Vfs

open ConeOS.Library

section Model

/-- A signed 64-bit expression: `none` where its value does not fit, which C leaves undefined. -/
def int64 (value : Int) : Option Int :=
  if -2 ^ 63≤value ∧ value<2 ^ 63 then some value else none

/-- `(int64_t)value`. -/
def castInt64 (value : Nat) : Int := Int.bmod value (2 ^ 64)

/-- `(uint64_t)value`. -/
def castUInt64 (value : Int) : Nat := (value%2 ^ 64).toNat

/-- The initialiser of `base`. -/
def seekStart (whence : Int) (offset size : Nat) : Int :=
  if whence=0 then 0
  else if whence=1 then castInt64 offset
  else if whence=2 then castInt64 size
  else -1

/-- The guard of `vfs_seek` with its operands in the order C evaluates them. -/
def seekRejected (base offset : Int) (size : Nat) : Option Bool :=
  if base<0 then some true
  else do
    let negated ← int64 (-base)
    if offset<negated then some true
    else
      let sum ← int64 (base+offset)
      if sum<0 then some true else some (decide (castUInt64 sum > size))

variable {σ : Type} (ops : FsKind → FileOps σ)

/-- `vfs_seek` from the guard on. -/
def seekTo (k : FileRef) (base offset : Int) (size : Nat) (v : VfsState σ) :
    Option (Int × VfsState σ) := do
  let rejected ← seekRejected base offset size
  if rejected then some (-1,v)
  else
    let sum ← int64 (base+offset)
    some (castInt64 (castUInt64 sum), setOffset k (castUInt64 sum) v)

/-- `vfs_seek` from the lookup of the operations on, with its signed arithmetic. -/
def seekFileInt64 (fd : VfsFd) (offset whence : Int) (v : VfsState σ) :
    Option (Int × VfsState σ) :=
  match fd.file with
  | none => some (-1,v)
  | some k =>
    match (ops (pathOps v fd.name).1).stat (pathOps v fd.name).2 v.backend with
    | none => some (-1,v)
    | some size => seekTo k (seekStart whence (v.openFiles k).offset size) offset size v

/-- `vfs_seek` with its signed arithmetic; `none` where an expression overflows. -/
def vfsSeekInt64 (owner : Nat) (number offset whence : Int) (v : VfsState σ) :
    Option (Int × VfsState σ) :=
  match lookup v owner number with
  | none => some (-1,v)
  | some i =>
    let fd := v.descriptors i
    if number<3 ∨ fd.device ≠ .none ∨ fd.pipeMode ≠ .none then some (-1,v)
    else seekFileInt64 ops fd offset whence v

end Model

section Arithmetic

variable {value whence offset : Int} {size base : Nat} {k : FileRef}

theorem int64_some (hlow : -2 ^ 63≤value) (hhigh : value<2 ^ 63) :
    int64 value=some value := by
  rw [int64,if_pos ⟨hlow,hhigh⟩]

theorem castInt64_eq {value : Nat} (h : value<2 ^ 63) : castInt64 value=value := by
  apply Int.bmod_eq_of_le
  · omega
  · omega

theorem castUInt64_eq (hlow : 0≤value) (hhigh : value<2 ^ 63) :
    castUInt64 value=value.toNat := by
  rw [castUInt64,Int.emod_eq_of_lt hlow (by omega)]

theorem seekStart_eq {offset : Nat}
    (h : seekBase whence offset size=some base) (hbase : base<2 ^ 63) :
    seekStart whence offset size=base := by
  rw [seekBase] at h
  rw [seekStart]
  split_ifs at h ⊢
  · rw [← Option.some.inj h]
    rfl
  · rw [castInt64_eq] <;> rw [Option.some.inj h]
    exact hbase
  · rw [castInt64_eq] <;> rw [Option.some.inj h]
    exact hbase

theorem seekStart_unknown {offset : Nat}
    (h : seekBase whence offset size=none) : seekStart whence offset size = -1 := by
  rw [seekBase] at h
  rw [seekStart]
  split_ifs at h ⊢
  rfl

/-- Without overflow the guard refuses exactly the sums outside the file. -/
theorem seekRejected_eq (hbase : base<2 ^ 63)
    (hoffset : -2 ^ 63≤offset) (hsum : (base : Int)+offset<2 ^ 63) :
    seekRejected base offset size =
      some (decide ((base : Int)+offset<0 ∨ size<base+offset)) := by
  have hnegated : int64 (-(base : Int))=some (-(base : Int)) := int64_some (by omega) (by omega)
  have hfits : int64 ((base : Int)+offset)=some (base+offset) :=
    int64_some (by omega) hsum
  rw [seekRejected,if_neg (by omega),hnegated,hfits]
  simp only [Option.bind_eq_bind,Option.bind_some]
  by_cases hbelow : offset < -(base : Int)
  · rw [if_pos hbelow]
    simp only [Option.some.injEq]
    exact (decide_eq_true (.inl (by omega))).symm
  have hcast := castUInt64_eq (show 0≤(base : Int)+offset by omega) hsum
  rw [if_neg hbelow,if_neg (by omega),hcast]
  simp only [Option.some.injEq,decide_eq_decide]
  omega

theorem seekTo_eq {σ : Type} {v : VfsState σ}
    (hbase : base<2 ^ 63) (hoffset : -2 ^ 63≤offset) (hsum : (base : Int)+offset<2 ^ 63) :
    seekTo k base offset size v =
      some (if (base : Int)+offset<0 ∨ size<base+offset then (-1,v)
        else (base+offset, setOffset k (base+offset).toNat v)) := by
  rw [seekTo,seekRejected_eq hbase hoffset hsum,int64_some (by omega) hsum]
  simp only [Option.bind_eq_bind,Option.bind_some,decide_eq_true_eq]
  by_cases hout : (base : Int)+offset<0 ∨ size<base+offset
  · rw [if_pos hout,if_pos hout]
  · have hlow : 0≤(base : Int)+offset := by omega
    rw [if_neg hout,if_neg hout,castUInt64_eq hlow hsum,castInt64_eq (by omega),
      Int.toNat_of_nonneg hlow]

/-- A negative start, that of a wrong `whence` or of a word with its top bit set, is refused. -/
theorem seekTo_negative {σ : Type} {v : VfsState σ} {start : Int} (h : start<0) :
    seekTo k start offset size v=some (-1,v) := by
  rw [seekTo,seekRejected,if_pos h]
  rfl

theorem castInt64_neg (hlow : 2 ^ 63≤base) (hword : base<2 ^ 64) : castInt64 base<0 := by
  have hcast := Int.bmod_def (base : Int) (2 ^ 64)
  have hmod : (base : Int)%((2 ^ 64 : Nat) : Int)=base := by
    apply Int.emod_eq_of_lt <;> omega
  rw [hmod,if_neg] at hcast
  · show Int.bmod base (2 ^ 64)<0
    rw [hcast]
    push_cast
    omega
  · push_cast
    omega

theorem seekStart_negative {offset : Nat} (h : seekBase whence offset size=some base)
    (hbase : 2 ^ 63≤base) (hword : base<2 ^ 64) : seekStart whence offset size<0 := by
  have hcast := castInt64_neg hbase hword
  rw [seekBase] at h
  rw [seekStart]
  split_ifs at h ⊢
  · rw [← Option.some.inj h] at hbase
    omega
  · rw [Option.some.inj h]
    exact hcast
  · rw [Option.some.inj h]
    exact hcast

theorem seekTo_overflow {σ : Type} {v : VfsState σ} (hbase : base<2 ^ 63)
    (hsum : 2 ^ 63≤(base : Int)+offset) : seekTo k base offset size v=none := by
  have hnegated : int64 (-(base : Int))=some (-(base : Int)) := int64_some (by omega) (by omega)
  have hwide : int64 ((base : Int)+offset)=none := if_neg (by omega)
  rw [seekTo,seekRejected,if_neg (by omega),hnegated,hwide]
  simp only [Option.bind_eq_bind,Option.bind_some]
  rw [if_neg (by omega)]
  rfl

end Arithmetic

section Exactness

variable {σ : Type} (ops : FsKind → FileOps σ) {owner size : Nat} {number offset whence : Int}
  {k : FileRef}

/-- The number is that of a seekable file: its open-file record, and the size its file system
reports. -/
structure SeekableFile (v : VfsState σ) (owner : Nat) (number : Int) (k : FileRef) (size : Nat) :
    Prop where
  descriptor : ∃ i, lookup v owner number=some i ∧ (v.descriptors i).device = .none ∧
    (v.descriptors i).pipeMode = .none ∧ (v.descriptors i).file=some k ∧
    (ops (pathOps v (v.descriptors i).name).1).stat (pathOps v (v.descriptors i).name).2
      v.backend=some size
  number : 3≤number

/-- The start of a seek that gets as far as the sum. -/
structure SeekFrom (v : VfsState σ) (owner : Nat) (number whence : Int) (k : FileRef)
    (size base : Nat) : Prop where
  file : SeekableFile ops v owner number k size
  start : seekBase whence (v.openFiles k).offset size=some base

/-- There is one start at most. -/
theorem SeekFrom.unique {v : VfsState σ} {k' : FileRef} {size' base base' : Nat}
    (h : SeekFrom ops v owner number whence k size base)
    (h' : SeekFrom ops v owner number whence k' size' base') :
    k=k' ∧ size=size' ∧ base=base' := by
  obtain ⟨⟨⟨i,hi,-,-,hk,hsize⟩,-⟩,hstart⟩ := h
  obtain ⟨⟨⟨j,hj,-,-,hk',hsize'⟩,-⟩,hstart'⟩ := h'
  cases hi.symm.trans hj
  cases hk.symm.trans hk'
  cases hsize.symm.trans hsize'
  cases hstart.symm.trans hstart'
  exact ⟨rfl,rfl,rfl⟩

theorem SeekableFile.seek {v : VfsState σ} (h : SeekableFile ops v owner number k size) :
    vfsSeekInt64 ops owner number offset whence v =
      seekTo k (seekStart whence (v.openFiles k).offset size) offset size v := by
  obtain ⟨⟨i,hi,hdevice,hmode,hk,hsize⟩,hnumber⟩ := h
  simp [vfsSeekInt64,hi,hdevice,hmode,seekFileInt64,hk,hsize,Int.not_lt.mpr hnumber]

theorem SeekableFile.vfsSeek {v : VfsState σ} (h : SeekableFile ops v owner number k size) :
    vfsSeek ops owner number offset whence v =
      match seekBase whence (v.openFiles k).offset size with
      | none => (-1,v)
      | some base =>
        if (base : Int)+offset<0 ∨ size<base+offset then (-1,v)
        else (base+offset, setOffset k (base+offset).toNat v) := by
  obtain ⟨⟨i,hi,hdevice,hmode,hk,hsize⟩,hnumber⟩ := h
  simp only [Vfs.vfsSeek,hi,hdevice,hmode,seekFile,hk,hsize,Int.not_lt.mpr hnumber,ne_eq,
    not_true_eq_false,or_self,if_false] <;> rfl

/-- Everything else is refused before any arithmetic. -/
theorem vfsSeek_refused {v : VfsState σ} (offset whence : Int)
    (h : ¬ ∃ k size, SeekableFile ops v owner number k size) :
    vfsSeekInt64 ops owner number offset whence v=some (-1,v) ∧
      vfsSeek ops owner number offset whence v=(-1,v) := by
  rw [vfsSeekInt64,vfsSeek]
  cases hi : lookup v owner number with
  | none => exact ⟨rfl,rfl⟩
  | some i =>
    dsimp only
    by_cases hrefused : number<3 ∨ (v.descriptors i).device ≠ .none ∨
        (v.descriptors i).pipeMode ≠ .none
    · rw [if_pos hrefused,if_pos hrefused]
      exact ⟨rfl,rfl⟩
    rw [if_neg hrefused,if_neg hrefused,seekFileInt64,seekFile]
    simp only [not_or,not_not,not_lt] at hrefused
    obtain ⟨hnumber,hdevice,hmode⟩ := hrefused
    cases hk : (v.descriptors i).file with
    | none => exact ⟨rfl,rfl⟩
    | some k =>
      cases hsize : (ops (pathOps v (v.descriptors i).name).1).stat
          (pathOps v (v.descriptors i).name).2 v.backend with
      | none => simp
      | some size => exact absurd ⟨k,size,⟨i,hi,hdevice,hmode,hk,hsize⟩,hnumber⟩ h

/-- Neither the start nor the sum leaves the range of `int64_t`, or the start does and the sum
lies behind the file. -/
def SumFits (v : VfsState σ) (owner : Nat) (number offset whence : Int) : Prop :=
  ∀ k size base, SeekFrom ops v owner number whence k size base →
    if base<2 ^ 63 then base+offset<2 ^ 63 else size<base+offset

/-- The seek is the one over the integers exactly where the sum fits. -/
theorem vfsSeekInt64_iff {v : VfsState σ} (hoffset : -2 ^ 63≤offset)
    (hword : ∀ k size base, SeekFrom ops v owner number whence k size base → base<2 ^ 64) :
    vfsSeekInt64 ops owner number offset whence v =
        some (vfsSeek ops owner number offset whence v) ↔
      SumFits ops v owner number offset whence := by
  by_cases hfrom : ∃ k size base, SeekFrom ops v owner number whence k size base
  · obtain ⟨k,size,base,hfrom⟩ := hfrom
    have hone : SumFits ops v owner number offset whence ↔
        if base<2 ^ 63 then base+offset<2 ^ 63 else size<base+offset := by
      refine ⟨fun h => h k size base hfrom,fun h k' size' base' hfrom' => ?_⟩
      obtain ⟨rfl,rfl,rfl⟩ := hfrom.unique ops hfrom'
      exact h
    rw [hone,hfrom.file.seek,hfrom.file.vfsSeek,hfrom.start]
    dsimp only
    by_cases hbase : base<2 ^ 63
    · rw [if_pos hbase,seekStart_eq hfrom.start hbase]
      by_cases hsum : (base : Int)+offset<2 ^ 63
      · exact iff_of_true (seekTo_eq hbase hoffset hsum) hsum
      · rw [seekTo_overflow hbase (not_lt.mp hsum)]
        exact iff_of_false (Option.some_ne_none _).symm hsum
    · have hstart := seekStart_negative hfrom.start (not_lt.mp hbase) (hword k size base hfrom)
      rw [if_neg hbase,seekTo_negative hstart,Option.some.injEq]
      by_cases hbehind : (size : Int)<base+offset
      · exact iff_of_true (if_pos (Or.inr hbehind)).symm hbehind
      · refine iff_of_false (fun h => ?_) hbehind
        rw [if_neg (by omega)] at h
        have := congrArg Prod.fst h
        dsimp only at this
        omega
  · refine iff_of_true ?_ (fun k size base h => absurd ⟨k,size,base,h⟩ hfrom)
    by_cases hfile : ∃ k size, SeekableFile ops v owner number k size
    · obtain ⟨k,size,hfile⟩ := hfile
      rw [hfile.seek,hfile.vfsSeek]
      cases hstart : seekBase whence (v.openFiles k).offset size with
      | none => rw [seekStart_unknown hstart,seekTo_negative (by decide)]
      | some base => exact absurd ⟨k,size,base,hfile,hstart⟩ hfrom
    · obtain ⟨hint64,hplain⟩ := vfsSeek_refused ops offset whence hfile
      rw [hint64,hplain]

/-- Over the integers a seek stores and returns the exact sum, or refuses and changes nothing.
The one of the code does the same, without overflow, exactly where the sum fits. -/
theorem vfs_seek_exact (v : VfsState σ) (owner : Nat) (number offset whence : Int)
    (hoffset : -2 ^ 63≤offset ∧ offset<2 ^ 63)
    (hword : ∀ k size base, SeekFrom ops v owner number whence k size base → base<2 ^ 64) :
    (∀ k size base, SeekFrom ops v owner number whence k size base →
      0≤base+offset → base+offset ≤ size →
      vfsSeek ops owner number offset whence v =
        (base+offset, setOffset k (base+offset).toNat v)) ∧
    ((¬ ∃ k size base, SeekFrom ops v owner number whence k size base ∧
        0≤base+offset ∧ base+offset ≤ size) →
      vfsSeek ops owner number offset whence v=(-1,v)) ∧
    (vfsSeekInt64 ops owner number offset whence v =
        some (vfsSeek ops owner number offset whence v) ↔
      SumFits ops v owner number offset whence) := by
  refine ⟨?_,?_,vfsSeekInt64_iff ops hoffset.1 hword⟩
  · intro k size base hfrom hlow hhigh
    rw [hfrom.file.vfsSeek,hfrom.start]
    dsimp only
    rw [if_neg (by omega)]
  intro hnone
  by_cases hfile : ∃ k size, SeekableFile ops v owner number k size
  · obtain ⟨k,size,hfile⟩ := hfile
    rw [hfile.vfsSeek]
    cases hstart : seekBase whence (v.openFiles k).offset size with
    | none => rfl
    | some base =>
      dsimp only
      rw [if_pos]
      by_contra hin
      exact hnone ⟨k,size,base,⟨hfile,hstart⟩,by omega,by omega⟩
  · rw [(vfsSeek_refused ops offset whence hfile).2]

end Exactness

section Samples

theorem oneByte_seekable : SeekableFile oneByteOps twoFilesOpen 1 3 ⟨3,by decide⟩ 1 where
  descriptor := ⟨⟨3,by decide⟩,by decide +kernel⟩
  number := by decide

/-- From the start of a file of one byte to its end. -/
theorem seek_to_end :
    vfsSeekInt64 oneByteOps 1 3 1 0 twoFilesOpen =
      some (1,setOffset ⟨3,by decide⟩ 1 twoFilesOpen) := by
  have hbase : ∀ k size base, SeekFrom oneByteOps twoFilesOpen 1 3 0 k size base → base=0 :=
    fun k size base h => (Option.some.inj h.start).symm
  obtain ⟨hsum,-,hexact⟩ := vfs_seek_exact oneByteOps twoFilesOpen 1 3 1 0 (by decide)
    (fun k size base h => by rw [hbase k size base h]; decide)
  rw [hexact.mpr fun k size base h => by
    rw [hbase k size base h,if_pos (by decide)]; decide]
  exact congrArg some (hsum ⟨3,by decide⟩ 1 0 ⟨oneByte_seekable,rfl⟩ (by decide) (by decide))

/-- After one byte is read, the largest offset from there overflows. -/
theorem seek_sum_overflows :
    (vfsRead oneByteOps 1 3 1 twoFilesOpen).1 = .returned 0 1 [7] ∧
    (vfsSeekInt64 oneByteOps 1 3 (2 ^ 63-1) 1
      (vfsRead oneByteOps 1 3 1 twoFilesOpen).2).isNone=true := by
  decide +kernel

end Samples

end ConeOS.Vfs
