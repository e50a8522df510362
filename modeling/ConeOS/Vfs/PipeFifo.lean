import ConeOS.Vfs.PipeEdit

namespace ConeOS.Vfs

open ConeOS.Library Function List

/-- A pipe against its history: nothing lost, nothing duplicated, nothing reordered. -/
structure PipeInv (p : VfsPipe) (h : History) : Prop where
  ring : RingInv p
  fifo : p.used=true → h.accepted=h.delivered ++ buffered p
  drained : p.used=false → p.count=0
  order : h.delivered <+: h.accepted

section Pipe

variable {p q : VfsPipe} {h : History} {bytes buffer : List UInt8} {total : Nat}

theorem PipeInv.step (inv : PipeInv p h) (hs : RingStep p q) : PipeInv q h := by
  rcases hs with ⟨hu,hh,ht,hc,hd⟩ | ⟨hu,hh,ht,hc⟩
  · have hring : RingInv q := by
      refine ⟨?_,?_,?_⟩
      · rw [hh]
        exact inv.ring.head
      · rw [hc]
        exact inv.ring.count
      · rw [ht,hh,hc]
        exact inv.ring.tail
    refine ⟨hring,?_,?_,inv.order⟩
    · intro hq
      rw [inv.fifo (hu ▸ hq),buffered,buffered,hh,hc,hd]
    · intro hq
      rw [hc]
      exact inv.drained (hu ▸ hq)
  · refine ⟨⟨?_,?_,?_⟩,?_,fun _ => hc,inv.order⟩
    · rw [hh]
      exact capacity_pos
    · rw [hc]
      exact Nat.zero_le _
    · rw [ht,hh,hc]
      rfl
    · intro hq
      rw [hu] at hq
      cases hq

theorem PipeInv.fresh (hs : RingFresh p q) : PipeInv q ⟨[],[]⟩ := by
  obtain ⟨-,hu,hh,ht,hc⟩ := hs
  refine ⟨⟨?_,?_,?_⟩,?_,fun _ => hc, List.nil_prefix⟩
  · rw [hh]
    exact capacity_pos
  · rw [hc]
    exact Nat.zero_le _
  · rw [ht,hh,hc]
    rfl
  · intro _
    simp [buffered,hc]

theorem PipeInv.read (inv : PipeInv p h) {length : Nat}
    (hr : (readSection length p).1 = .took bytes) :
    PipeInv (readSection length p).2 { h with delivered := h.delivered ++ bytes } := by
  obtain ⟨hring,hbuf,hcount,-⟩ := readSection_took inv.ring hr
  obtain ⟨hused,-,-⟩ := readSection_ends length p inv.ring.head
  have hlive : p.used=true := by
    cases hu : p.used
    · exact absurd (inv.drained hu) hcount
    · rfl
  have hall : h.accepted=(h.delivered ++ bytes) ++ buffered (readSection length p).2 := by
    rw [inv.fifo hlive,hbuf,append_assoc]
  refine ⟨hring,fun _ => hall,?_,⟨_,hall.symm⟩⟩
  intro hu
  rw [hused,hlive] at hu
  cases hu

theorem PipeInv.write (inv : PipeInv p h)
    (hlive : p.used=true) (hw : (writeSection buffer total p).1 = .put bytes) :
    PipeInv (writeSection buffer total p).2 { h with accepted := h.accepted ++ bytes } := by
  obtain ⟨hring,hbuf,hused,-,-⟩ := writeSection_spec inv.ring buffer total
  rw [hw] at hbuf
  refine ⟨hring,?_,?_,inv.order.trans (prefix_append _ _)⟩
  · intro _
    show h.accepted ++ bytes=h.delivered ++ _
    rw [hbuf,inv.fifo hlive,append_assoc]
  · intro hu
    rw [hused,hlive] at hu
    cases hu

theorem PipeInv.writeNothing (inv : PipeInv p h)
    (hw : ∀ bytes, (writeSection buffer total p).1 ≠ .put bytes) :
    PipeInv (writeSection buffer total p).2 h := by
  obtain ⟨hring,hbuf,hused,-,-⟩ := writeSection_spec inv.ring buffer total
  have hsame : buffered (writeSection buffer total p).2=buffered p := by
    rw [hbuf]
    split
    next bytes hb => exact absurd hb (hw bytes)
    · simp
  refine ⟨hring,?_,?_,inv.order⟩
  · intro hu
    rw [hsame]
    exact inv.fifo (hused ▸ hu)
  intro hu
  have hlen := congrArg List.length hsame
  simp only [buffered,ringContents_length] at hlen
  rw [hlen]
  exact inv.drained (hused ▸ hu)

end Pipe

section System

variable {σ : Type} {s : System σ} {log : List Event} {task length : Nat} {k : PipeRef}

/-- The tables count their holders, and every pipe agrees with what the log says. -/
structure SystemInv (s : System σ) (log : List Event) : Prop where
  table : DescriptorInv s.vfs
  pipes : ∀ k, PipeInv (s.vfs.pipes k) (history k log)

theorem history_append (k : PipeRef) (log events : List Event) :
    history k (log ++ events)=events.foldl (History.record k) (history k log) :=
  foldl_append

theorem created_history (k : PipeRef) (ks : List PipeRef) (h : History) :
    (ks.map Event.created).foldl (History.record k) h=if k ∈ ks then ⟨[],[]⟩ else h := by
  induction ks generalizing h with
  | nil => rfl
  | cons j ks ih =>
    simp only [map_cons,foldl_cons,ih,mem_cons,History.record]
    by_cases hj : j=k
    · subst hj
      simp
    · simp [hj,Ne.symm hj]

/-- The ends of a pipe are counted outside its ring. -/
theorem DescriptorInv.setPipe {v : VfsState σ} (inv : DescriptorInv v) (k : PipeRef)
    (p : VfsPipe) (hu : p.used=(v.pipes k).used) (hr : p.readers=(v.pipes k).readers)
    (hw : p.writers=(v.pipes k).writers) :
    DescriptorInv { v with pipes := update v.pipes k p } := by
  have hrecord (j : PipeRef) : (update v.pipes k p j).used=(v.pipes j).used ∧
      (update v.pipes k p j).readers=(v.pipes j).readers ∧
      (update v.pipes k p j).writers=(v.pipes j).writers := by
    by_cases h : j=k
    · subst h
      simpa using ⟨hu,hr,hw⟩
    · simp [h]
  refine ⟨inv.distinct,inv.references,inv.fileUsed,?_,?_,?_⟩
  · intro j
    rw [← inv.readers j]
    exact (hrecord j).2.1
  · intro j
    rw [← inv.writers j]
    exact (hrecord j).2.2
  intro j
  show (update v.pipes k p j).used=true ↔ _
  rw [(hrecord j).1,(hrecord j).2.1,(hrecord j).2.2]
  exact inv.pipeUsed j

theorem SystemInv.setActivity (inv : SystemInv s log) (task : Nat) (a : Activity) :
    SystemInv (s.setActivity task a) log :=
  ⟨inv.table,inv.pipes⟩

theorem SystemInv.setPipe (inv : SystemInv s log) (k : PipeRef) (p : VfsPipe)
    (events : List Event) (hu : p.used=(s.vfs.pipes k).used)
    (hr : p.readers=(s.vfs.pipes k).readers) (hw : p.writers=(s.vfs.pipes k).writers)
    (hk : PipeInv p (history k (log ++ events)))
    (hother : ∀ j, j≠k → history j (log ++ events)=history j log) :
    SystemInv (s.setPipe k p) (log ++ events) := by
  refine ⟨inv.table.setPipe k p hu hr hw,?_⟩
  intro j
  show PipeInv (update s.vfs.pipes k p j) _
  by_cases h : j=k
  · subst h
    rw [update_self]
    exact hk
  · rw [update_of_ne h,hother j h]
    exact inv.pipes j

theorem SystemInv.standardStreams (inv : SystemInv s log) (task : Nat) :
    SystemInv { s with vfs := ensureStandardStreams task s.vfs } log := by
  refine ⟨inv.table.ensureStandardStreams task,?_⟩
  intro k
  show PipeInv ((ensureStandardStreams task s.vfs).pipes k) _
  rw [ensureStandardStreams_pipes]
  exact inv.pipes k

theorem SystemInv.enterRead (inv : SystemInv s log) (task : Nat) (number : Int)
    (length : Nat) : SystemInv (enterRead task number length s).1
      (log ++ (enterRead task number length s).2) := by
  have hstd := inv.standardStreams task
  have hempty (k : PipeRef) :
      SystemInv { s with vfs := ensureStandardStreams task s.vfs }
        (log ++ [.delivered task k 0 []]) := by
    refine ⟨hstd.table,fun j => ?_⟩
    have hsame : history j (log ++ [.delivered task k 0 []])=history j log := by
      simp [history_append,History.record]
    rw [hsame]
    exact hstd.pipes j
  unfold Vfs.enterRead
  dsimp only
  split
  · simpa using hstd.setActivity task _
  split
  · simpa using hstd
  split
  · simpa using hstd.setActivity task _
  split
  · simpa using hstd.setActivity task _
  split
  · exact (hempty _).setActivity task _
  · simpa using hstd.setActivity task _

theorem SystemInv.enterWrite (inv : SystemInv s log) (task : Nat) (number : Int)
    (buffer : List UInt8) : SystemInv (enterWrite task number buffer s) log := by
  have hstd := inv.standardStreams task
  unfold Vfs.enterWrite
  dsimp only
  split
  · exact hstd.setActivity task _
  split
  · exact hstd.setActivity task _
  split
  · exact hstd
  split
  · exact hstd.setActivity task _
  split
  · exact hstd.setActivity task _
  split
  · exact hstd.setActivity task _
  · exact hstd.setActivity task _

/-- The read section of a task, whatever it decides. -/
theorem SystemInv.readSection (inv : SystemInv s log) (k : PipeRef) (length task : Nat) :
    SystemInv (s.setPipe k (readSection length (s.vfs.pipes k)).2)
      (log ++ match (readSection length (s.vfs.pipes k)).1 with
        | .took bytes => [.delivered task k length bytes]
        | .endOfFile => [.delivered task k length []]
        | .wait => []) := by
  have hk := inv.pipes k
  obtain ⟨hu,hr,hw⟩ := readSection_ends length (s.vfs.pipes k) hk.ring.head
  refine inv.setPipe k _ _ hu hr hw ?_ ?_
  · rw [history_append]
    split
    next bytes hb => simpa [History.record] using hk.read hb
    next he =>
      rw [readSection_still _ (by simp [he])]
      simpa [History.record] using hk
    next he =>
      rw [readSection_still _ (by simp [he])]
      simpa using hk
  · intro j hj
    rw [history_append]
    split <;> simp [History.record,Ne.symm hj]

/-- The write section of a task, whatever it decides. -/
theorem SystemInv.writeSection (inv : SystemInv s log) (k : PipeRef) (buffer : List UInt8)
    (total task : Nat) :
    SystemInv (s.setPipe k (writeSection buffer total (s.vfs.pipes k)).2)
      (log ++ match (writeSection buffer total (s.vfs.pipes k)).1 with
        | .put bytes => [.accepted task k bytes]
        | _ => []) := by
  have hk := inv.pipes k
  obtain ⟨-,-,hu,hr,hw⟩ := writeSection_spec hk.ring buffer total
  refine inv.setPipe k _ _ hu hr hw ?_ ?_
  · rw [history_append]
    split
    next bytes hb =>
      have hreaders := writeSection_put hb
      have hlive : (s.vfs.pipes k).used=true := (inv.table.pipeUsed k).mpr (by omega)
      simpa [History.record] using hk.write hlive hb
    next hb => simpa using hk.writeNothing hb
  · intro j hj
    rw [history_append]
    split <;> simp [History.record,Ne.symm hj]

theorem SystemInv.advance (inv : SystemInv s log) (task : Nat) :
    SystemInv (advance task s).1 (log ++ (advance task s).2) := by
  unfold Vfs.advance
  split
  · simpa using inv
  next k length _ =>
    have hread := inv.readSection k length task
    split
    next bytes p hb =>
      rw [hb] at hread
      exact hread.setActivity task _
    next p hb =>
      rw [hb] at hread
      exact hread.setActivity task _
    next p hb =>
      rw [hb] at hread
      exact hread.setActivity task _
  · split <;> simpa using inv.setActivity task _
  · simpa using inv
  next k buffer total _ =>
    have hwrite := inv.writeSection k buffer total task
    split
    next p hb =>
      rw [hb] at hwrite
      exact hwrite.setActivity task _
    next bytes p hb =>
      rw [hb] at hwrite
      exact hwrite.setActivity task _
    next p hb =>
      rw [hb] at hwrite
      exact hwrite.setActivity task _
  · split <;> simpa using inv.setActivity task _
  · simpa using inv
  · rw [append_nil]
    exact ⟨inv.table,inv.pipes⟩

theorem SystemInv.runCall (inv : SystemInv s log) (ops : FsKind → FsOps σ) (task : Nat)
    (c : TableCall) : SystemInv (runCall ops task c s).1 (log ++ (runCall ops task c s).2) := by
  unfold Vfs.runCall
  refine SystemInv.setActivity ⟨inv.table.run ops c,?_⟩ task _
  intro k
  rw [history_append,created_history]
  have hmem : k ∈ createdPipes s.vfs (c.run ops s.vfs).state ↔
      (s.vfs.pipes k).used=false ∧ ((c.run ops s.vfs).state.pipes k).used=true := by
    simp [createdPipes,mem_finRange]
  rcases c.run_edits ops s.vfs k with hedit | hfresh
  · rw [if_neg]
    · exact (inv.pipes k).step hedit.ring
    rw [hmem]
    rintro ⟨hbefore,hafter⟩
    rcases hedit.ring with ⟨hu,-⟩ | ⟨hu,-⟩
    · rw [hu,hbefore] at hafter
      cases hafter
    · rw [hu] at hafter
      cases hafter
  · rw [if_pos (hmem.mpr ⟨hfresh.1,hfresh.2.1⟩)]
    exact PipeInv.fresh hfresh

theorem SystemInv.step (inv : SystemInv s log) (ops : FsKind → FsOps σ) (a : Action) :
    SystemInv (s.step ops a).1 (log ++ (s.step ops a).2) := by
  cases a with
  | call task c =>
    simp only [System.step]
    split
    · exact inv.runCall ops task c
    · simpa using inv
  | read task number length =>
    simp only [System.step]
    split
    · exact inv.enterRead task number length
    · simpa using inv
  | write task number buffer =>
    simp only [System.step]
    split
    · simpa using inv.enterWrite task number buffer
    · simpa using inv
  | advance task => exact inv.advance task

theorem SystemInv.run (inv : SystemInv s log) (ops : FsKind → FsOps σ) (actions : List Action) :
    SystemInv (System.run ops actions (s,log)).1 (System.run ops actions (s,log)).2 := by
  induction actions generalizing s log with
  | nil => exact inv
  | cons a as ih => exact ih (inv.step ops a)

theorem vfsInit_pipes (b : σ) (k : PipeRef) :
    (vfsInit b).pipes k=⟨false,0,0,0,0,0,fun _ => 0⟩ := by
  unfold vfsInit
  rw [ensureStandardStreams_pipes,(installMount_tables _ _ _ _ _).2.2]

theorem boot_inv (b : σ) : SystemInv (System.boot b) [] := by
  unfold System.boot
  refine ⟨vfsInit_inv b,fun k => ?_⟩
  dsimp only
  rw [vfsInit_pipes]
  refine ⟨⟨capacity_pos,Nat.zero_le _,rfl⟩,fun h => ?_,fun _ => rfl, List.nil_prefix⟩
  cases h

theorem enterRead_events (task : Nat) (number : Int) (length : Nat) (s : System σ) {e : Event}
    (h : e ∈ (enterRead task number length s).2) : ∃ k, e = .delivered task k 0 [] := by
  unfold Vfs.enterRead at h
  dsimp only at h
  split at h
  · cases h
  split at h
  · cases h
  split at h
  · cases h
  split at h
  · cases h
  split at h
  · exact ⟨_,mem_singleton.mp h⟩
  · cases h

theorem advance_endOfFile {t : Nat} (hring : RingInv (s.vfs.pipes k))
    (hlen : length≠0) (h : Event.delivered t k length [] ∈ (advance task s).2) :
    (s.vfs.pipes k).count=0 ∧ (s.vfs.pipes k).writers=0 := by
  unfold Vfs.advance at h
  split at h
  · cases h
  next j n _ =>
    split at h
    next bytes p hb =>
      have he := mem_singleton.mp h
      injection he with _ hk hn hbytes
      subst hk hn
      have htook : (readSection length (s.vfs.pipes k)).1 = .took bytes := by rw [hb]
      obtain ⟨-,-,hcount,hsize⟩ := readSection_took hring htook
      rw [← hbytes,length_nil] at hsize
      omega
    next p hb =>
      have he := mem_singleton.mp h
      injection he with _ hk hn _
      subst hk hn
      exact readSection_endOfFile (by rw [hb])
    next p hb => cases h
  · split at h <;> cases h
  · cases h
  · split at h
    · cases h
    · have he := mem_singleton.mp h
      cases he
    · cases h
  · split at h <;> cases h
  · cases h
  · cases h

/-- A read of a non-empty length that delivers nothing comes from an empty pipe whose last
writer is gone. -/
theorem SystemInv.endOfFile (inv : SystemInv s log) (ops : FsKind → FsOps σ) {a : Action}
    (hlen : length≠0)
    (h : Event.delivered task k length [] ∈ (s.step ops a).2) :
    (s.vfs.pipes k).count=0 ∧ ∀ i, holdsEnd k .write (s.vfs.descriptors i)=false := by
  have hend : (s.vfs.pipes k).count=0 ∧ (s.vfs.pipes k).writers=0 := by
    cases a with
    | call task c =>
      simp only [System.step] at h
      split at h
      · obtain ⟨j,-,hj⟩ := mem_map.mp h
        cases hj
      · cases h
    | read t number n =>
      simp only [System.step] at h
      split at h
      · obtain ⟨j,hj⟩ := enterRead_events t number n s h
        injection hj with _ _ hzero
        exact absurd hzero hlen
      · cases h
    | write t number buffer =>
      simp only [System.step] at h
      split at h <;> cases h
    | advance t => exact advance_endOfFile (inv.pipes k).ring hlen h
  refine ⟨hend.1,fun i => ?_⟩
  by_contra hi
  have hpos := tally_pos (t := s.vfs.descriptors) (Bool.eq_true_of_not_eq_false hi)
  rw [← inv.table.writers k,hend.2] at hpos
  omega

/-- In every run, the ring indices of every pipe are consistent, what its readers got is
what its writers put in, in that order and up to the bytes still buffered, and a reader
is told the end of the file only when nothing is buffered and nobody can write. -/
theorem pipes_lossless_fifo (ops : FsKind → FsOps σ) (b : σ) (actions : List Action)
    (k : PipeRef) :
    let r := System.run ops actions (System.boot b, [])
    let p := r.1.vfs.pipes k
    p.count≤4096 ∧ p.tail=(p.head+p.count)%4096 ∧
      (history k r.2).delivered <+: (history k r.2).accepted ∧
      (p.used=true → (history k r.2).accepted=(history k r.2).delivered ++ buffered p ∧
        (buffered p).length=p.count) ∧
      ∀ a task length, length≠0 → Event.delivered task k length [] ∈ (r.1.step ops a).2 →
        p.count=0 ∧ ∀ i, holdsEnd k .write (r.1.vfs.descriptors i)=false := by
  have inv := (boot_inv b).run ops actions
  have hk := inv.pipes k
  refine ⟨hk.ring.count,hk.ring.tail,hk.order,fun hu => ⟨hk.fifo hu,?_⟩,?_⟩
  · exact ringContents_length _ _ _
  · intro a task length hlen h
    exact inv.endOfFile ops hlen h

end System

end ConeOS.Vfs
