import ConeOS.Drivers.Block

namespace ConeOS.Drivers

open ConeOS.Library Function List

section Polling

variable {target delay : Nat} {rounds wait : Nat} {b : Block}

theorem pollUsed_late (hd : delay<wait)
    (hu : b.used 1≠target) : pollUsed target delay rounds wait b=(false,b) := by
  induction rounds generalizing wait with
  | zero => rfl
  | succ rounds ih =>
    rw [pollUsed,if_neg (by omega : wait≠delay)]
    exact (if_pos hu).trans (ih (by omega))

theorem pollUsed_eq (hw : wait≤delay)
    (hd : delay<wait+rounds) (hu : b.used 1≠target) :
    pollUsed target delay rounds wait b =
      (decide (b.complete.used 1=target), b.complete) := by
  induction rounds generalizing wait with
  | zero => omega
  | succ rounds ih =>
    rw [pollUsed]
    by_cases hwd : wait=delay
    · rw [if_pos hwd]
      by_cases ht : b.complete.used 1=target
      · rw [decide_eq_true ht]
        exact if_neg (not_not_intro ht)
      · rw [decide_eq_false ht]
        exact (if_pos ht).trans (pollUsed_late (by omega) ht)
    · rw [if_neg hwd]
      exact (if_pos hu).trans (ih (by omega) (by omega))

end Polling

/-- The queue after `calls` requests: the three indices agree with the number of requests
modulo 2^16, and every slot of the available ring names the first descriptor. -/
structure Synced (calls : Nat) (b : Block) : Prop where
  initialized : b.initialized=true
  flushSupported : b.flushSupported=true
  sectors_le : b.sectors≤2 ^ 64
  queueSize_ge : virtqSize≤b.queueSize
  available_index : b.available 1=calls%2 ^ 16
  available_ring : ∀ i, b.available (2+i)=0
  used_index : b.used 1=calls%2 ^ 16
  lastAvailable : b.device.lastAvailable=calls%2 ^ 16

section Submit

variable {calls : Nat} {b : Block}

/-- What the device has done when it has taken the published request. -/
def Block.served (b : Block) : ByteMemory × (Nat → SectorData) :=
  serve (chainFrom b.descriptors b.queueSize 0) b.memory b.device.disk

theorem publish_complete (h : Synced calls b) :
    Synced (calls+1) (publish (b.available 1) b).complete ∧
      (publish (b.available 1) b).complete.memory=b.served.1 ∧
      (publish (b.available 1) b).complete.device.disk=b.served.2 ∧
      (publish (b.available 1) b).complete.requestPhysical=b.requestPhysical ∧
      (publish (b.available 1) b).complete.sectors=b.sectors := by
  have hlt : calls%2 ^ 16<2 ^ 16 := Nat.mod_lt _ (Nat.two_pow_pos 16)
  have hnext : (calls%2 ^ 16+1)%2 ^ 16=(calls+1)%2 ^ 16 := by omega
  have hring : ∀ i, (publish (b.available 1) b).available (2+i)=0 := by
    intro i
    by_cases hi : i=b.available 1%virtqSize
    · simp [publish,hi,show 2+b.available 1%virtqSize≠1 by omega]
    · simp [publish,hi,h.available_ring,show 2+i≠1 by omega]
  have hindex : (publish (b.available 1) b).available 1=(calls+1)%2 ^ 16 := by
    simp only [publish,update_self]
    rw [h.available_index,hnext]
  have hpending : (publish (b.available 1) b).device.lastAvailable
      ≠ (publish (b.available 1) b).available 1 := by
    rw [hindex]
    have := h.lastAvailable
    simp only [publish]
    omega
  have hcomplete : (publish (b.available 1) b).complete =
      { publish (b.available 1) b with
        memory := b.served.1
        device := ⟨(calls+1)%2 ^ 16,b.served.2⟩
        used := update b.used 1 ((calls+1)%2 ^ 16) } := by
    rw [Block.complete,if_neg hpending]
    simp only [hring]
    simp only [publish,Block.served,h.lastAvailable,h.used_index,hnext]
  rw [hcomplete]
  refine ⟨?_,rfl,rfl,rfl,rfl⟩
  exact
    { initialized := h.initialized
      flushSupported := h.flushSupported
      sectors_le := h.sectors_le
      queueSize_ge := h.queueSize_ge
      available_index := hindex
      available_ring := hring
      used_index := update_self 1 _ b.used
      lastAvailable := rfl }

/-- A request succeeds when the device reports status 0, except when the index it is published
at is the last one before the wrap: the driver waits for 2^16 and the device shows 0. -/
theorem submit_spec (h : Synced calls b) {statusOffset delay : Nat} (hd : delay<pollLimit)
    (hs : b.served.1 (b.requestPhysical+statusOffset)=0) :
    (submit statusOffset delay b).1=decide (calls%2 ^ 16≠2 ^ 16-1) ∧
      Synced (calls+1) (submit statusOffset delay b).2 ∧
      (submit statusOffset delay b).2.memory=b.served.1 ∧
      (submit statusOffset delay b).2.device.disk=b.served.2 ∧
      (submit statusOffset delay b).2.requestPhysical=b.requestPhysical ∧
      (submit statusOffset delay b).2.sectors=b.sectors := by
  obtain ⟨hsynced,hmemory,hdisk⟩ := publish_complete h
  have hunseen : (publish (b.available 1) b).used 1≠b.available 1+1 := by
    have hused : (publish (b.available 1) b).used 1=b.used 1 := rfl
    rw [hused,h.used_index,h.available_index]
    omega
  have hpoll := pollUsed_eq (Nat.zero_le delay) (by omega : delay<0+pollLimit) hunseen
  rw [submit,hpoll]
  refine ⟨?_,hsynced,hmemory,hdisk⟩
  have hseen : decide ((publish (b.available 1) b).complete.used 1=b.available 1+1) =
      decide (calls%2 ^ 16≠2 ^ 16-1) := by
    rw [hsynced.used_index,h.available_index]
    apply decide_eq_decide.mpr
    omega
  rw [hseen,hmemory,hs,beq_self_eq_true,Bool.and_true]

end Submit

section Requests

variable {calls : Nat} {b : Block} {sector : Nat}

theorem Synced.storeBytes (h : Synced calls b) (address : Nat) (bytes : List UInt8) :
    Synced calls (storeBytes address bytes b) :=
  ⟨h.1,h.2,h.3,h.4,h.5,h.6,h.7,h.8⟩

theorem Synced.setDescriptor (h : Synced calls b) (i : Nat) (d : VirtqDesc) :
    Synced calls (setDescriptor i d b) :=
  ⟨h.1,h.2,h.3,h.4,h.5,h.6,h.7,h.8⟩

theorem Synced.writeHeader (h : Synced calls b) (type sector : Nat) :
    Synced calls (writeHeader type sector b) :=
  ((h.storeBytes _ _).storeBytes _ _).storeBytes _ _

theorem Synced.prepareTransfer (h : Synced calls b) (sector : Nat) (write : Option SectorData) :
    Synced calls (prepareTransfer sector write b) := by
  apply Synced.setDescriptor
  apply Synced.setDescriptor
  apply Synced.setDescriptor
  apply Synced.storeBytes
  cases write with
  | none => exact h.writeHeader _ _
  | some buffer => exact (h.writeHeader _ _).storeBytes _ _

theorem Synced.prepareFlush (h : Synced calls b) : Synced calls (prepareFlush b) :=
  (((h.writeHeader _ _).storeBytes _ _).setDescriptor _ _).setDescriptor _ _

/-- The page with the three fields of the header written. -/
def headerPage (p type sector : Nat) (m : ByteMemory) : ByteMemory :=
  store (p+8) (toLittleEndian 8 sector)
    (store (p+4) (toLittleEndian 4 0) (store p (toLittleEndian 4 type) m))

theorem load_header {p type : Nat} {m m' : ByteMemory} (htype : type<2 ^ 32)
    (hsector : sector<2 ^ 64)
    (hm : ∀ a, a<p+16 → m' a=headerPage p type sector m a) :
    ofLittleEndian (load p 4 m')=type ∧ ofLittleEndian (load (p+8) 8 m')=sector := by
  constructor
  · rw [load_congr (fun i hi => hm (p+i) (by omega)),headerPage,
      load_store_apart (.inl (by omega)),load_store_apart (.inl (by omega)),
      load_store (toLittleEndian_length 4 type).symm,ofLittleEndian_toLittleEndian (by omega)]
  · rw [load_congr (fun i hi => hm (p+8+i) (by omega)),headerPage,
      load_store (toLittleEndian_length 8 sector).symm,ofLittleEndian_toLittleEndian (by omega)]

theorem prepareTransfer_chain (hq : virtqSize≤b.queueSize) (write : Option SectorData) :
    chainFrom (prepareTransfer sector write b).descriptors b.queueSize 0 =
      [⟨b.requestPhysical,16,virtqDescNext,1⟩,
       ⟨b.requestPhysical+16,512,
        virtqDescNext ||| (if write.isSome then 0 else virtqDescWrite),2⟩,
       ⟨b.requestPhysical+528,1,virtqDescWrite,0⟩] := by
  obtain ⟨n,hn⟩ : ∃ n, b.queueSize=n+3 :=
    ⟨b.queueSize-3,by rw [virtqSize] at hq; omega⟩
  have next0 : virtqDescNext.testBit 0=true := rfl
  have next2 : virtqDescWrite.testBit 0=false := rfl
  rw [hn]
  cases write <;>
    simp [chainFrom,prepareTransfer,setDescriptor,VirtqDesc.hasNext,next0,next2,
      Nat.testBit_or,-Nat.testBit_zero]

theorem prepareFlush_chain (hq : virtqSize≤b.queueSize) :
    chainFrom (prepareFlush b).descriptors b.queueSize 0 =
      [⟨b.requestPhysical,16,virtqDescNext,1⟩,⟨b.requestPhysical+16,1,virtqDescWrite,0⟩] := by
  obtain ⟨n,hn⟩ : ∃ n, b.queueSize=n+2 :=
    ⟨b.queueSize-2,by rw [virtqSize] at hq; omega⟩
  have next0 : virtqDescNext.testBit 0=true := rfl
  have next1 : virtqDescWrite.testBit 0=false := rfl
  rw [hn]
  simp [chainFrom,prepareFlush,setDescriptor,VirtqDesc.hasNext,next0,next1]

theorem prepareTransfer_read_memory : (prepareTransfer sector none b).memory =
    store (b.requestPhysical+528) [0xFF] (headerPage b.requestPhysical 0 sector b.memory) := by
  simp [prepareTransfer,writeHeader,headerPage]

theorem prepareTransfer_write_memory (buffer : SectorData) :
    (prepareTransfer sector (some buffer) b).memory =
      store (b.requestPhysical+528) [0xFF] (store (b.requestPhysical+16) buffer.1
        (headerPage b.requestPhysical 1 sector b.memory)) := by
  simp [prepareTransfer,writeHeader,headerPage]

theorem prepareFlush_memory : (prepareFlush b).memory =
    store (b.requestPhysical+16) [0xFF]
      (headerPage b.requestPhysical virtioBlkTFlush 0 b.memory) := by
  simp [prepareFlush,writeHeader,headerPage]

theorem prepareTransfer_frame (b : Block) (sector : Nat) (write : Option SectorData) :
    (prepareTransfer sector write b).queueSize=b.queueSize ∧
      (prepareTransfer sector write b).device=b.device ∧
      (prepareTransfer sector write b).requestPhysical=b.requestPhysical ∧
      (prepareTransfer sector write b).sectors=b.sectors := by
  cases write <;> simp [prepareTransfer,writeHeader]

theorem prepareFlush_frame :
    (prepareFlush b).queueSize=b.queueSize ∧ (prepareFlush b).device=b.device ∧
      (prepareFlush b).requestPhysical=b.requestPhysical ∧
      (prepareFlush b).sectors=b.sectors := by
  simp [prepareFlush,writeHeader]

theorem prepareTransfer_served (h : Synced calls b) (write : Option SectorData) :
    (prepareTransfer sector write b).served =
      serve
        [⟨b.requestPhysical,16,virtqDescNext,1⟩,
         ⟨b.requestPhysical+16,512,
          virtqDescNext ||| (if write.isSome then 0 else virtqDescWrite),2⟩,
         ⟨b.requestPhysical+528,1,virtqDescWrite,0⟩]
        (prepareTransfer sector write b).memory b.device.disk := by
  obtain ⟨hq,hd,-⟩ := prepareTransfer_frame b sector write
  rw [Block.served,hq,hd,prepareTransfer_chain h.queueSize_ge write]

theorem served_read (h : Synced calls b) (hs : sector<b.sectors) :
    ∃ m, (prepareTransfer sector none b).served =
      (store (b.requestPhysical+528) [0]
        (store (b.requestPhysical+16) (b.device.disk sector).1 m), b.device.disk) := by
  have hlt : sector<2 ^ 64 := lt_of_lt_of_le hs h.sectors_le
  have hheader : ∀ a, a<b.requestPhysical+16 →
      (prepareTransfer sector none b).memory a =
        headerPage b.requestPhysical 0 sector b.memory a := by
    intro a ha
    rw [prepareTransfer_read_memory,store_apply_of_lt (by omega)]
  obtain ⟨htype,hsector⟩ := load_header (by decide) hlt hheader
  refine ⟨(prepareTransfer sector none b).memory,?_⟩
  have hwritable : (virtqDescNext ||| virtqDescWrite).testBit 1=true := by decide
  rw [prepareTransfer_served h none]
  simp [serve,htype,hsector,VirtqDesc.isWritable,hwritable]

theorem served_write (h : Synced calls b) (hs : sector<b.sectors) (buffer : SectorData) :
    ∃ m, (prepareTransfer sector (some buffer) b).served =
      (store (b.requestPhysical+528) [0] m,
        update b.device.disk sector buffer) := by
  have hlt : sector<2 ^ 64 := lt_of_lt_of_le hs h.sectors_le
  have hlen := buffer.2
  have hheader : ∀ a, a<b.requestPhysical+16 →
      (prepareTransfer sector (some buffer) b).memory a =
        headerPage b.requestPhysical 1 sector b.memory a := by
    intro a ha
    rw [prepareTransfer_write_memory,store_apply_of_lt (by omega),store_apply_of_lt ha]
  obtain ⟨htype,hsector⟩ := load_header (by decide) hlt hheader
  have hdata : loadSector (b.requestPhysical+16)
      (prepareTransfer sector (some buffer) b).memory=buffer := by
    apply Subtype.ext
    simp only [loadSector,prepareTransfer_write_memory]
    rw [load_store_apart (.inl (by omega)),load_store hlen.symm]
  refine ⟨(prepareTransfer sector (some buffer) b).memory,?_⟩
  have hwritable : virtqDescNext.testBit 1=false := by decide
  rw [prepareTransfer_served h (some buffer)]
  simp [serve,htype,hsector,hdata,VirtqDesc.isWritable,hwritable]

theorem served_flush (h : Synced calls b) :
    ∃ m, (prepareFlush b).served=(store (b.requestPhysical+16) [0] m, b.device.disk) := by
  have hheader : ∀ a, a<b.requestPhysical+16 →
      (prepareFlush b).memory a =
        headerPage b.requestPhysical virtioBlkTFlush 0 b.memory a := by
    intro a ha
    rw [prepareFlush_memory,store_apply_of_lt ha]
  obtain ⟨htype,-⟩ := load_header (by decide) (by decide) hheader
  obtain ⟨hq,hd,-⟩ := prepareFlush_frame (b := b)
  refine ⟨(prepareFlush b).memory,?_⟩
  rw [Block.served,hq,hd,prepareFlush_chain h.queueSize_ge]
  simp [serve,htype]

end Requests

section Calls

variable {calls : Nat} {b : Block} {sector delay : Nat} {cs : List BlockCall}

theorem transfer_eq_submit (h : Synced calls b) (hs : sector<b.sectors)
    (write : Option SectorData) :
    transfer sector write delay b=submit 528 delay (prepareTransfer sector write b) := by
  rw [transfer,h.initialized]
  exact if_neg (by simpa using hs)

theorem blockFlush_eq_submit (h : Synced calls b) :
    blockFlush delay b=submit 16 delay (prepareFlush b) := by
  rw [blockFlush,h.initialized,h.flushSupported]
  rfl

/-- A call in range, whose request the device answers within the polling bound. -/
def BlockCall.Served (sectors : Nat) : BlockCall → Prop
  | .read sector delay => sector<sectors ∧ delay<pollLimit
  | .write sector _ delay => sector<sectors ∧ delay<pollLimit
  | .flush delay => delay<pollLimit

/-- What a disk does with a call: the last data written to a sector is what it holds. -/
def BlockCall.effect (disk : Nat → SectorData) : BlockCall → (Nat → SectorData)
  | .write sector buffer _ => update disk sector buffer
  | _ => disk

/-- What a call that does not fail returns. -/
def BlockCall.answer (disk : Nat → SectorData) : BlockCall → CallResult
  | .read sector _ => ⟨true,some (disk sector)⟩
  | _ => ⟨true,none⟩

/-- The result of a call that fails. -/
def CallResult.failure : CallResult := ⟨false,none⟩

/-- A transfer ends with the disk the device left and its verdict on the index. -/
theorem transfer_spec (h : Synced calls b) (hs : sector<b.sectors) (hd : delay<pollLimit)
    {write : Option SectorData} {m : ByteMemory} {disk : Nat → SectorData}
    (hserved : (prepareTransfer sector write b).served =
      (store (b.requestPhysical+528) [0] m, disk)) :
    ∃ b', transfer sector write delay b=(decide (calls%2 ^ 16≠2 ^ 16-1), b') ∧
      Synced (calls+1) b' ∧ b'.memory=store (b.requestPhysical+528) [0] m ∧
      b'.device.disk=disk ∧ b'.requestPhysical=b.requestPhysical ∧ b'.sectors=b.sectors := by
  obtain ⟨-,-,hp,hsectors⟩ := prepareTransfer_frame b sector write
  have hstatus : (prepareTransfer sector write b).served.1
      ((prepareTransfer sector write b).requestPhysical+528)=0 := by
    rw [hserved,hp]
    simp [store]
  obtain ⟨hok,hsynced,hmemory,hdisk,hp',hsectors'⟩ :=
    submit_spec (h.prepareTransfer sector write) hd hstatus
  rw [transfer_eq_submit h hs]
  refine ⟨_,Prod.ext hok rfl,hsynced,?_,?_,hp'.trans hp,hsectors'.trans hsectors⟩
  · rw [hmemory,hserved]
  · rw [hdisk,hserved]

/-- One call: the disk always takes its effect; the answer is lost when the request is the
last one before the 16-bit index wraps. -/
theorem BlockCall.run_spec (h : Synced calls b) {c : BlockCall} (hc : c.Served b.sectors) :
    (c.run b).1 =
        (if calls%2 ^ 16=2 ^ 16-1 then .failure else c.answer b.device.disk) ∧
      Synced (calls+1) (c.run b).2 ∧
      (c.run b).2.device.disk=c.effect b.device.disk ∧
      (c.run b).2.sectors=b.sectors := by
  cases c with
  | read sector delay =>
    obtain ⟨m,hserved⟩ := served_read h hc.1
    obtain ⟨b',htransfer,hsynced,hmemory,hdisk,hp,hsectors⟩ :=
      transfer_spec h hc.1 hc.2 hserved
    have hdata : loadSector (b'.requestPhysical+16) b'.memory=b.device.disk sector := by
      apply Subtype.ext
      simp only [loadSector]
      rw [hmemory,hp,load_store_apart (.inl (by omega)),load_store (b.device.disk sector).2.symm]
    by_cases hlast : calls%2 ^ 16=2 ^ 16-1
    · rw [decide_eq_false (not_not_intro hlast)] at htransfer
      have hread : blockReadSector sector delay b=(none,b') := by
        rw [blockReadSector,htransfer]
      rw [BlockCall.run,hread,if_pos hlast]
      exact ⟨rfl,hsynced,hdisk,hsectors⟩
    rw [decide_eq_true hlast] at htransfer
    have hread : blockReadSector sector delay b=(some (b.device.disk sector), b') := by
      rw [blockReadSector,htransfer]
      simp only [hdata]
    rw [BlockCall.run,hread,if_neg hlast]
    exact ⟨rfl,hsynced,hdisk,hsectors⟩
  | write sector buffer delay =>
    obtain ⟨m,hserved⟩ := served_write h hc.1 buffer
    obtain ⟨b',htransfer,hsynced,-,hdisk,-,hsectors⟩ :=
      transfer_spec h hc.1 hc.2 hserved
    rw [BlockCall.run,blockWriteSector,htransfer]
    refine ⟨?_,hsynced,hdisk,hsectors⟩
    by_cases hlast : calls%2 ^ 16=2 ^ 16-1
    · rw [if_pos hlast,decide_eq_false (not_not_intro hlast)]
      rfl
    · rw [if_neg hlast,decide_eq_true hlast]
      rfl
  | flush delay =>
    obtain ⟨m,hserved⟩ := served_flush h
    obtain ⟨-,-,hp,hsectors⟩ := prepareFlush_frame (b := b)
    have hstatus : (prepareFlush b).served.1 ((prepareFlush b).requestPhysical+16)=0 := by
      rw [hserved,hp]
      simp [store]
    obtain ⟨hok,hsynced,-,hdisk,-,hsectors'⟩ := submit_spec h.prepareFlush hc hstatus
    rw [BlockCall.run,blockFlush_eq_submit h]
    refine ⟨?_,hsynced,?_,hsectors'.trans hsectors⟩
    · rw [hok]
      by_cases hlast : calls%2 ^ 16=2 ^ 16-1
      · rw [if_pos hlast,decide_eq_false (not_not_intro hlast)]
        rfl
      · rw [if_neg hlast,decide_eq_true hlast]
        rfl
    · rw [hdisk,hserved]
      rfl

theorem runCalls_synced (h : Synced calls b)
    (hcs : ∀ c ∈ cs, c.Served b.sectors) : Synced (calls+cs.length) (runCalls cs b).2 := by
  induction cs generalizing calls b with
  | nil => exact h
  | cons c cs ih =>
    obtain ⟨-,hsynced,-,hsectors⟩ := BlockCall.run_spec h (hcs c mem_cons_self)
    have hrest := ih hsynced fun c' hc' => by
      rw [hsectors]
      exact hcs c' (mem_cons_of_mem c hc')
    rw [length_cons,Nat.add_comm cs.length,← Nat.add_assoc]
    exact hrest

/-- Every run of calls: the disk takes every effect, and each answer is the one of the disk at
its time, the ones given before a wrap of the index apart. -/
theorem runCalls_spec (h : Synced calls b)
    (hcs : ∀ c ∈ cs, c.Served b.sectors) :
    (runCalls cs b).2.device.disk=cs.foldl BlockCall.effect b.device.disk ∧
      ∀ k c, cs[k]? = some c → (runCalls cs b).1[k]? = some
        (if (calls+k)%2 ^ 16=2 ^ 16-1 then .failure
         else c.answer ((cs.take k).foldl BlockCall.effect b.device.disk)) := by
  induction cs generalizing calls b with
  | nil => exact ⟨rfl,fun k c hk => by simp at hk⟩
  | cons c cs ih =>
    obtain ⟨hanswer,hsynced,hdisk,hsectors⟩ := BlockCall.run_spec h (hcs c mem_cons_self)
    obtain ⟨hrest,hanswers⟩ := ih hsynced fun c' hc' => by
      rw [hsectors]
      exact hcs c' (mem_cons_of_mem c hc')
    refine ⟨?_,?_⟩
    · rw [runCalls,foldl_cons,← hdisk]
      exact hrest
    intro k c' hk
    cases k with
    | zero =>
      rw [List.getElem?_cons_zero,Option.some.injEq] at hk
      subst hk
      rw [runCalls,List.getElem?_cons_zero,hanswer]
      rfl
    | succ k =>
      rw [List.getElem?_cons_succ] at hk
      rw [runCalls,List.getElem?_cons_succ,take_succ_cons,foldl_cons,← hdisk,
        hanswers k c' hk,Nat.add_right_comm,Nat.add_assoc]

end Calls

section Boot

variable {hostFeatures sectorsLow sectorsHigh : UInt32} {queueSize : UInt16}
  {requestPhysical : Nat} {memory : ByteMemory} {disk : Nat → SectorData} {b : Block}

theorem blockInit_synced (hflush : hostFeatures.toNat.testBit virtioBlkFFlush=true)
    (h : blockInit hostFeatures queueSize sectorsLow sectorsHigh requestPhysical memory disk =
      some b) : Synced 0 b ∧ b.device.disk=disk := by
  rw [blockInit] at h
  split at h
  · cases h
  · next hsize =>
    rw [Option.some.injEq] at h
    subst h
    refine ⟨⟨rfl,hflush,?_,?_,rfl,fun _ => rfl,rfl,rfl⟩,rfl⟩
    · have hlow := sectorsLow.toNat_lt
      have hhigh := sectorsHigh.toNat_lt
      show sectorsLow.toNat+2 ^ 32*sectorsHigh.toNat≤2 ^ 64
      omega
    · show virtqSize≤queueSize.toNat
      omega

/-- From `block_init` on, with a device that answers in time: every write reaches its sector,
and a call returns 1, with the last data written to the sector if it is a read, unless the
available index it finds is 65535. The index counts the calls before, modulo 65536. -/
theorem block_calls_correct (hflush : hostFeatures.toNat.testBit virtioBlkFFlush=true)
    (hinit : blockInit hostFeatures queueSize sectorsLow sectorsHigh requestPhysical memory disk =
      some b) (cs : List BlockCall) (hcs : ∀ c ∈ cs, c.Served b.sectors) :
    (runCalls cs b).2.device.disk=cs.foldl BlockCall.effect disk ∧
      ∀ k c, cs[k]? = some c → (runCalls (cs.take k) b).2.available 1=k%65536 ∧
        (runCalls cs b).1[k]? = some
        (if (runCalls (cs.take k) b).2.available 1=65535 then .failure
         else c.answer ((cs.take k).foldl BlockCall.effect disk)) := by
  obtain ⟨hsynced,hdisk⟩ := blockInit_synced hflush hinit
  obtain ⟨hfinal,hanswers⟩ := runCalls_spec hsynced hcs
  rw [hdisk] at hfinal hanswers
  refine ⟨hfinal,fun k c hk => ?_⟩
  have hk' : k<cs.length := (List.getElem?_eq_some_iff.mp hk).1
  have hbefore : ∀ c ∈ cs.take k, c.Served b.sectors := fun c hc =>
    hcs c (mem_of_mem_take hc)
  have hindex := (runCalls_synced hsynced hbefore).available_index
  rw [length_take,Nat.min_eq_left (Nat.le_of_lt hk'),Nat.zero_add] at hindex
  have hanswer := hanswers k c hk
  rw [Nat.zero_add] at hanswer
  rw [hindex]
  exact ⟨rfl,hanswer⟩

/-- A sector of equal bytes. -/
def filledSector (x : UInt8) : SectorData := ⟨List.replicate 512 x,length_replicate⟩

/-- A device with a queue of 16 entries and one sector. -/
def smallBlock : Block :=
  { initialized := true
    flushSupported := true
    sectors := 1
    queueSize := 16
    requestPhysical := 0
    descriptors := fun _ => ⟨0,0,0,0⟩
    available := fun _ => 0
    used := fun _ => 0
    memory := store 0 (List.replicate 4096 0) (fun _ => 0)
    device := ⟨0,fun _ => filledSector 0⟩ }

theorem smallBlock_init : blockInit 512 16 1 0 0 (fun _ => 0)
    (fun _ => filledSector 0)=some smallBlock := by
  rw [blockInit,if_neg (by decide)]
  rfl

theorem smallBlock_calls_served :
    ∀ c ∈ [BlockCall.write 0 (filledSector 7) 3,.flush 0,.read 0 9],
      c.Served smallBlock.sectors := by
  intro c hc
  rw [mem_cons,mem_cons,mem_singleton] at hc
  obtain rfl | rfl | rfl := hc <;>
    simp only [BlockCall.Served,smallBlock,pollLimit] <;> omega

theorem smallBlock_reads_back :
    (runCalls [.write 0 (filledSector 7) 3,.flush 0,.read 0 9] smallBlock).1[2]? =
      some ⟨true,some (filledSector 7)⟩ := by
  obtain ⟨hindex,hanswer⟩ :=
    (block_calls_correct (by decide) smallBlock_init _ smallBlock_calls_served).2 2 (.read 0 9) rfl
  rw [hindex,if_neg (by decide)] at hanswer
  exact hanswer

/-- The 65536th request is completed by the device, and the driver waits for an index the
device can not show. -/
theorem flush_fails_at_wrap :
    (∀ c ∈ List.replicate 65536 (BlockCall.flush 0), c.Served smallBlock.sectors) ∧
      (runCalls (List.replicate 65536 (.flush 0)) smallBlock).1[65535]? = some .failure := by
  have hserved : ∀ c ∈ List.replicate 65536 (BlockCall.flush 0), c.Served smallBlock.sectors := by
    intro c hc
    rw [eq_of_mem_replicate hc]
    exact Nat.zero_lt_succ _
  obtain ⟨hsynced,-⟩ := blockInit_synced (by decide) smallBlock_init
  refine ⟨hserved,?_⟩
  have hlast : (List.replicate 65536 (BlockCall.flush 0))[65535]? = some (.flush 0) :=
    List.getElem?_replicate_of_lt (by omega)
  rw [(runCalls_spec hsynced hserved).2 65535 _ hlast]
  exact congrArg some (if_pos rfl)

end Boot

end ConeOS.Drivers
