import ConeOS.Vfs.Console
import ConeOS.Vfs.PipeEdit

namespace ConeOS.Vfs

open TaskSystem Function

variable {σ : Type}

/-- A call goes on from its `task_wake_blocked` neither blocked nor to another one. -/
def Activity.Tame : Activity → Prop
  | .waking next => next.isBlocked=false ∧ next.isWaking=false
  | _ => True

/-- Unless a `task_wake_blocked` is still to come, whoever is blocked has something to wait
for. -/
structure WakeInv (s : TaskSystem σ) : Prop where
  tame : ∀ t, (s.pipes.activity t).Tame
  apart : ∀ t, s.console t ≠ .outside → (s.pipes.activity t).isWaking=false
  waits : s.Quiet → BlockedWait s

theorem wake_isBlocked (a : Activity) : a.wake.isBlocked=false := by
  cases a <;> rfl

theorem wake_isWaking (a : Activity) : a.wake.isWaking=a.isWaking := by
  cases a <;> rfl

theorem wake_tame {a : Activity} (h : a.Tame) : a.wake.Tame := by
  cases a <;> trivial

theorem TaskSystem.BlockedWait.of_none {s : TaskSystem σ}
    (hpipes : ∀ t, (s.pipes.activity t).isBlocked=false)
    (hconsole : ∀ t length, s.console t ≠ .blocked length) : BlockedWait s := by
  refine ⟨?_,?_,?_⟩
  · intro t k length ht
    have h := hpipes t
    rw [ht] at h
    cases h
  · intro t k buffer total ht
    have h := hpipes t
    rw [ht] at h
    cases h
  · intro t length ht
    exact absurd ht (hconsole t length)

theorem console_wake_ne (r : ConsoleRead) (length : Nat) : r.wake ≠ .blocked length := by
  cases r <;> simp [ConsoleRead.wake]

theorem console_wake_outside {r : ConsoleRead} (h : r.wake ≠ .outside) : r ≠ .outside := by
  rintro rfl
  exact h rfl

theorem WakeInv.taskWakeBlocked {s : TaskSystem σ} (inv : WakeInv s) :
    WakeInv s.taskWakeBlocked := by
  refine ⟨fun t => wake_tame (inv.tame t),?_,fun _ => BlockedWait.of_none
    (fun t => wake_isBlocked _) (fun t => console_wake_ne _)⟩
  intro t ht
  exact (wake_isWaking _).trans (inv.apart t (console_wake_outside ht))

section Steps

variable {s : TaskSystem σ} {a : Activity}

/-- A blocked activity has something to wait for. -/
def Activity.Waits (v : VfsState σ) : Activity → Prop
  | .readerBlocked k _ => pipeReaderShouldWait (v.pipes k)=true
  | .writerBlocked k _ _ => pipeWriterShouldWait (v.pipes k)=true
  | _ => True

theorem Activity.Waits.keep {v w : VfsState σ} (h : a.Waits v)
    (hkeep : ∀ k, KeepsWaits (v.pipes k) (w.pipes k)) : a.Waits w := by
  cases a with
  | readerBlocked k length => exact (hkeep k).1 h
  | writerBlocked k buffer total => exact (hkeep k).2 h
  | _ => trivial

theorem TaskSystem.BlockedWait.activity (h : BlockedWait s) (t : Nat) :
    (s.pipes.activity t).Waits s.pipes.vfs := by
  cases ha : s.pipes.activity t with
  | readerBlocked k length => exact h.reader t k length ha
  | writerBlocked k buffer total => exact h.writer t k buffer total ha
  | _ => trivial

theorem TaskSystem.BlockedWait.of_activity (h : ∀ t, (s.pipes.activity t).Waits s.pipes.vfs)
    (hconsole : ∀ t length, s.console t = .blocked length →
      keyboardInputWaiting s.keyboard=true) : BlockedWait s := by
  refine ⟨?_,?_,hconsole⟩
  · intro t k length ht
    have hwait := h t
    rw [ht] at hwait
    exact hwait
  intro t k buffer total ht
  have hwait := h t
  rw [ht] at hwait
  exact hwait

/-- A step of the running task on the pipes: either a wake is to come, or nobody's wait
ended. -/
theorem WakeInv.setPipes (inv : WakeInv s) {v : VfsState σ}
    (hidle : (s.pipes.activity s.running).isWaking=false) (htame : a.Tame) (hwait : a.Waits v)
    (hapart : s.console s.running = .outside ∨ a.isWaking=false)
    (hkeep : a.isWaking=false → ∀ k, KeepsWaits (s.pipes.vfs.pipes k) (v.pipes k)) :
    WakeInv { s with pipes := ⟨v,update s.pipes.activity s.running a⟩ } := by
  have hself : update s.pipes.activity s.running a s.running=a :=
    update_self ..
  have hother {t : Nat} (ht : t≠s.running) :
      update s.pipes.activity s.running a t=s.pipes.activity t :=
    update_of_ne ht ..
  refine ⟨?_,?_,?_⟩
  · intro t
    show (update s.pipes.activity s.running a t).Tame
    by_cases h : t=s.running
    · subst h
      rw [hself]
      exact htame
    · rw [hother h]
      exact inv.tame t
  · intro t ht
    show (update s.pipes.activity s.running a t).isWaking=false
    by_cases h : t=s.running
    · subst h
      rw [hself]
      exact hapart.resolve_left ht
    · rw [hother h]
      exact inv.apart t ht
  intro hquiet
  have hwaits : BlockedWait s := by
    apply inv.waits
    intro t
    by_cases h : t=s.running
    · rw [h]
      exact hidle
    · rw [← hother h]
      exact hquiet t
  have hkeep := hkeep (by simpa [hself] using hquiet s.running)
  refine BlockedWait.of_activity ?_ hwaits.console
  intro t
  show (update s.pipes.activity s.running a t).Waits v
  by_cases h : t=s.running
  · subst h
    rw [hself]
    exact hwait
  · rw [hother h]
    exact (hwaits.activity t).keep hkeep

theorem isIdle_isWaking (h : a.isIdle=true) : a.isWaking=false := by
  cases a <;> first
    | rfl
    | cases h

/-- What a task outside the calls can become by entering one. -/
structure Entered (a : Activity) : Prop where
  unblocked : a.isBlocked=false
  notWaking : a.isWaking=false

theorem entered_idle (status : Int) (count : Nat) : Entered (.idle status count) := ⟨rfl,rfl⟩

theorem Entered.tame (h : Entered a) : a.Tame := by
  cases a with
  | waking next => exact absurd h.notWaking (by simp [Activity.isWaking])
  | _ => trivial

theorem Entered.waits (h : Entered a) (v : VfsState σ) : a.Waits v := by
  cases a with
  | readerBlocked k length => exact absurd h.unblocked (by simp [Activity.isBlocked])
  | writerBlocked k buffer total => exact absurd h.unblocked (by simp [Activity.isBlocked])
  | _ => trivial

theorem Entered.of_idle (h : a.isIdle=true) : Entered a := by
  cases a <;> first
    | exact entered_idle _ _
    | cases h

theorem WakeInv.enter (inv : WakeInv s) {v : VfsState σ}
    (hidle : (s.pipes.activity s.running).isWaking=false) (ha : Entered a)
    (hpipes : v.pipes=s.pipes.vfs.pipes) :
    WakeInv { s with pipes := ⟨v,update s.pipes.activity s.running a⟩ } := by
  refine inv.setPipes hidle ha.tame (ha.waits v) (Or.inr ha.notWaking) (fun _ k => ?_)
  rw [hpipes]
  exact KeepsWaits.refl _

theorem enterRead_entered (task : Nat) (number : Int) (length : Nat) (p : System σ)
    (hidle : (p.activity task).isIdle=true) :
    ∃ a, Entered a ∧ (enterRead task number length p).1 =
      ⟨ensureStandardStreams task p.vfs,update p.activity task a⟩ := by
  unfold enterRead
  dsimp only
  split
  · exact ⟨_,entered_idle _ _,rfl⟩
  split
  · exact ⟨p.activity task,Entered.of_idle hidle,by rw [update_eq_self]⟩
  split
  · exact ⟨_,entered_idle _ _,rfl⟩
  split
  · exact ⟨_,entered_idle _ _,rfl⟩
  split
  · exact ⟨_,entered_idle _ _,rfl⟩
  · exact ⟨_,⟨rfl,rfl⟩,rfl⟩

theorem enterWrite_entered (task : Nat) (number : Int) (buffer : List UInt8) (p : System σ)
    (hidle : (p.activity task).isIdle=true) :
    ∃ a, Entered a ∧ enterWrite task number buffer p =
      ⟨ensureStandardStreams task p.vfs,update p.activity task a⟩ := by
  unfold enterWrite
  dsimp only
  split
  · exact ⟨_,entered_idle _ _,rfl⟩
  split
  · exact ⟨_,entered_idle _ _,rfl⟩
  split
  · exact ⟨p.activity task,Entered.of_idle hidle,by rw [update_eq_self]⟩
  split
  · exact ⟨_,entered_idle _ _,rfl⟩
  split
  · exact ⟨_,entered_idle _ _,rfl⟩
  split
  · exact ⟨_,⟨rfl,rfl⟩,rfl⟩
  · exact ⟨_,entered_idle _ _,rfl⟩

theorem WakeInv.returns (inv : WakeInv s)
    (hidle : (s.pipes.activity s.running).isWaking=false) (status : Int) (count : Nat) :
    WakeInv (s.returns status count) :=
  inv.enter hidle (entered_idle status count) rfl

/-- The running task moves in the console loop; it blocks only while there is no input. -/
theorem WakeInv.setConsole (inv : WakeInv s) {r : ConsoleRead}
    (hidle : (s.pipes.activity s.running).isWaking=false)
    (h : ∀ length, r = .blocked length → keyboardInputWaiting s.keyboard=true) :
    WakeInv (s.setConsole r) := by
  refine ⟨inv.tame,?_,?_⟩
  · intro t ht
    change update s.console s.running r t ≠ .outside at ht
    by_cases hrunning : t=s.running
    · rw [hrunning]
      exact hidle
    · rw [update_of_ne hrunning] at ht
      exact inv.apart t ht
  intro hquiet
  obtain ⟨hreader,hwriter,hconsole⟩ := inv.waits hquiet
  refine ⟨hreader,hwriter,?_⟩
  intro t length ht
  change update s.console s.running r t = .blocked length at ht
  by_cases hrunning : t=s.running
  · subst hrunning
    rw [update_self] at ht
    exact h length ht
  · rw [update_of_ne hrunning] at ht
    exact hconsole t length ht

theorem WakeInv.devfsRead (inv : WakeInv s)
    (hidle : (s.pipes.activity s.running).isWaking=false) (device : DevfsDevice)
    (length : Nat) : WakeInv (s.devfsRead device length) := by
  unfold TaskSystem.devfsRead
  split
  · exact inv.returns hidle _ _
  · exact inv.returns hidle _ _
  · exact inv.returns hidle _ _
  · split_ifs
    · exact inv.returns hidle _ _
    · exact inv.setConsole hidle (fun _ h => by cases h)

theorem WakeInv.vfsRead (inv : WakeInv s) (ops : FsKind → FsOps σ)
    (hidle : (s.pipes.activity s.running).isIdle=true) (number : Int) (length : Nat) :
    WakeInv (s.vfsRead ops number length) := by
  obtain ⟨a,ha,heq⟩ := enterRead_entered s.running number length s.pipes hidle
  have hread : (s.pipes.step ops (.read s.running number length)).1 =
      ⟨ensureStandardStreams s.running s.pipes.vfs,update s.pipes.activity s.running a⟩ := by
    rw [← heq]
    simp only [System.step,hidle,if_true]
  unfold TaskSystem.vfsRead
  rw [hread]
  have hentered := inv.enter (isIdle_isWaking hidle) ha
    (ensureStandardStreams_pipes s.running s.pipes.vfs)
  have hnow : (update s.pipes.activity s.running a s.running).isWaking=false := by
    rw [update_self]
    exact ha.notWaking
  dsimp only
  split
  · exact hentered
  split_ifs
  · exact hentered
  · exact hentered.returns hnow _ _
  · exact hentered.devfsRead hnow _ _
  · exact hentered.returns hnow _ _
  · exact hentered

theorem WakeInv.call (inv : WakeInv s) (ops : FsKind → FsOps σ)
    (hidle : (s.pipes.activity s.running).isIdle=true)
    (hout : s.console s.running = .outside) (c : TableCall) :
    WakeInv { s with pipes := (s.pipes.step ops (.call s.running c)).1 } := by
  simp only [System.step,hidle,if_true,runCall]
  apply inv.setPipes (isIdle_isWaking hidle)
  · split_ifs
    · exact ⟨rfl,rfl⟩
    · trivial
  · split_ifs <;> trivial
  · exact Or.inl hout
  intro hwaking
  apply c.run_waits ops
  split_ifs at hwaking with hwakes
  · cases hwaking
  · simpa using hwakes

/-- The pending `task_wake_blocked` of the running task. -/
theorem WakeInv.wake (inv : WakeInv s) {next : Activity}
    (h : s.pipes.activity s.running = .waking next) :
    WakeInv { s.taskWakeBlocked with
      pipes := s.taskWakeBlocked.pipes.setActivity s.running next } := by
  obtain ⟨hblocked,hwaking⟩ : next.isBlocked=false ∧ next.isWaking=false := by
    have htame := inv.tame s.running
    rw [h] at htame
    exact htame
  refine ⟨?_,?_,fun _ => BlockedWait.of_none ?_ (fun t => console_wake_ne _)⟩
  · intro t
    show (update s.taskWakeBlocked.pipes.activity s.running next t).Tame
    rw [update_apply]
    split_ifs
    · exact Entered.tame ⟨hblocked,hwaking⟩
    · exact wake_tame (inv.tame t)
  · intro t ht
    show (update s.taskWakeBlocked.pipes.activity s.running next t).isWaking=false
    rw [update_apply]
    split_ifs
    · exact hwaking
    · exact inv.taskWakeBlocked.apart t ht
  intro t
  show (update s.taskWakeBlocked.pipes.activity s.running next t).isBlocked=false
  rw [update_apply]
  split_ifs
  · exact hblocked
  · exact wake_isBlocked _

theorem WakeInv.still (inv : WakeInv s) {k : PipeRef} {q : VfsPipe}
    (hidle : (s.pipes.activity s.running).isWaking=false) (ha : Entered a)
    (hq : q=s.pipes.vfs.pipes k) :
    WakeInv { s with pipes := (s.pipes.setPipe k q).setActivity s.running a } := by
  subst hq
  refine inv.enter hidle ha ?_
  exact update_eq_self k s.pipes.vfs.pipes

/-- One section of `pipe_read` or `pipe_write`, or the wake after it. -/
theorem WakeInv.advancePipe (inv : WakeInv s) (ops : FsKind → FsOps σ)
    (hout : s.console s.running = .outside) : WakeInv (s.advancePipe ops) := by
  unfold TaskSystem.advancePipe
  simp only [System.step]
  cases h : s.pipes.activity s.running with
  | waking next =>
    have heq : (advance s.running s.pipes).1 =
        s.taskWakeBlocked.pipes.setActivity s.running next := by
      unfold Vfs.advance
      rw [h]
      rfl
    rw [heq]
    exact inv.wake h
  | idle status count =>
    unfold Vfs.advance
    rw [h]
    exact inv
  | readerBlocked k length =>
    unfold Vfs.advance
    rw [h]
    exact inv
  | writerBlocked k buffer total =>
    unfold Vfs.advance
    rw [h]
    exact inv
  | reading k length =>
    have hidle : (s.pipes.activity s.running).isWaking=false := by rw [h]; rfl
    unfold Vfs.advance
    rw [h]
    dsimp only [Activity.isWaking]
    split
    · exact inv.setPipes hidle ⟨rfl,rfl⟩ trivial (Or.inl hout) (fun h => by cases h)
    next p hsection =>
      have hstill := readSection_still (p := s.pipes.vfs.pipes k) length
        (by simp [hsection])
      rw [hsection] at hstill
      exact inv.still hidle (entered_idle _ _) hstill
    next p hsection =>
      have hstill := readSection_still (p := s.pipes.vfs.pipes k) length
        (by simp [hsection])
      rw [hsection] at hstill
      exact inv.still hidle ⟨rfl,rfl⟩ hstill
  | readerParking k length =>
    have hidle : (s.pipes.activity s.running).isWaking=false := by rw [h]; rfl
    unfold Vfs.advance
    rw [h]
    dsimp only [Activity.isWaking]
    split
    next hwait =>
      exact inv.setPipes hidle trivial hwait (Or.inl hout) (fun _ k => KeepsWaits.refl _)
    · exact inv.enter hidle ⟨rfl,rfl⟩ rfl
  | writing k buffer total =>
    have hidle : (s.pipes.activity s.running).isWaking=false := by rw [h]; rfl
    unfold Vfs.advance
    rw [h]
    dsimp only [Activity.isWaking]
    split
    next p hsection =>
      have hstill := writeSection_still (p := s.pipes.vfs.pipes k) buffer
        total (by simp [hsection])
      rw [hsection] at hstill
      exact inv.still hidle (entered_idle _ _) hstill
    · refine inv.setPipes hidle ?_ trivial (Or.inl hout) (fun h => by cases h)
      split_ifs <;> exact ⟨rfl,rfl⟩
    next p hsection =>
      have hstill := writeSection_still (p := s.pipes.vfs.pipes k) buffer
        total (by simp [hsection])
      rw [hsection] at hstill
      exact inv.still hidle ⟨rfl,rfl⟩ hstill
  | writerParking k buffer total =>
    have hidle : (s.pipes.activity s.running).isWaking=false := by rw [h]; rfl
    unfold Vfs.advance
    rw [h]
    dsimp only [Activity.isWaking]
    split
    next hwait =>
      exact inv.setPipes hidle trivial hwait (Or.inl hout) (fun _ k => KeepsWaits.refl _)
    · exact inv.enter hidle ⟨rfl,rfl⟩ rfl

theorem WakeInv.setKeyboard (inv : WakeInv s) {keyboard : Keyboard}
    (h : keyboardInputWaiting s.keyboard=true → keyboardInputWaiting keyboard=true) :
    WakeInv { s with keyboard := keyboard } := by
  refine ⟨inv.tame,inv.apart,?_⟩
  intro hquiet
  obtain ⟨hreader,hwriter,hconsole⟩ := inv.waits hquiet
  exact ⟨hreader,hwriter,fun t length ht => h (hconsole t length ht)⟩

theorem keyboardHandler_quiet {scancode : UInt8} {k : Keyboard}
    (h : (keyboardHandler scancode k).1=false) :
    (keyboardHandler scancode k).2.head=k.head ∧
      (keyboardHandler scancode k).2.tail=k.tail := by
  unfold keyboardHandler at h ⊢
  dsimp only at h ⊢
  split_ifs at h ⊢ <;> exact ⟨rfl,rfl⟩

theorem WakeInv.key (inv : WakeInv s) (ops : FsKind → FsOps σ) (scancode : UInt8) :
    WakeInv (s.step ops (.key scancode)) := by
  simp only [TaskSystem.step]
  split
  next keyboard hkey =>
    -- everybody is woken, whatever they waited for
    exact ⟨inv.taskWakeBlocked.tame,inv.taskWakeBlocked.apart,fun _ => BlockedWait.of_none
      (fun t => wake_isBlocked _) (fun t => console_wake_ne _)⟩
  next keyboard hkey =>
    obtain ⟨hhead,htail⟩ := keyboardHandler_quiet (by rw [hkey] : (keyboardHandler scancode
      s.keyboard).1=false)
    rw [hkey] at hhead htail
    dsimp only at hhead htail
    apply inv.setKeyboard
    rw [keyboardInputWaiting,keyboardInputWaiting,keyboardCharAvailable,keyboardCharAvailable,
      hhead,htail]
    exact id

theorem WakeInv.advanceConsole (inv : WakeInv s)
    (hidle : (s.pipes.activity s.running).isWaking=false) : WakeInv s.advanceConsole := by
  unfold TaskSystem.advanceConsole
  split
  · exact inv
  next length taken h =>
    split
    · split
      next value keyboard hread =>
        have htaken : WakeInv { s with keyboard := keyboard } := by
          apply inv.setKeyboard
          intro hwaiting
          unfold keyboardReadChar at hread
          simp only [keyboardInputWaiting,keyboardCharAvailable,Bool.not_eq_true',
            bne_eq_false_iff_eq] at hwaiting
          rw [if_pos hwaiting] at hread
          cases hread
        exact htaken.setConsole hidle (fun _ h => by cases h)
      · split
        · exact inv.setConsole hidle (fun _ h => by cases h)
        · exact (inv.setConsole hidle (fun _ h => by cases h)).returns hidle _ _
    · exact (inv.setConsole hidle (fun _ h => by cases h)).returns hidle _ _
  · split
    next hwaiting => exact inv.setConsole hidle (fun _ _ => hwaiting)
    · exact inv.setConsole hidle (fun _ h => by cases h)
  · exact inv

theorem WakeInv.step (inv : WakeInv s) (ops : FsKind → FsOps σ) (a : TaskAction) :
    WakeInv (s.step ops a) := by
  have houtside (h : s.isOutside=true) :
      s.console s.running = .outside ∧ (s.pipes.activity s.running).isIdle=true := by
    simpa [TaskSystem.isOutside] using h
  cases a with
  | call c =>
    simp only [TaskSystem.step]
    split_ifs with h
    · exact inv.call ops (houtside h).2 (houtside h).1 c
    · exact inv
  | read number length =>
    simp only [TaskSystem.step]
    split_ifs with h
    · exact inv.vfsRead ops (houtside h).2 number length
    · exact inv
  | write number buffer =>
    simp only [TaskSystem.step]
    split_ifs with h
    · obtain ⟨a,ha,heq⟩ := enterWrite_entered s.running number buffer s.pipes (houtside h).2
      simp only [System.step,(houtside h).2,if_true,heq]
      exact inv.enter (isIdle_isWaking (houtside h).2) ha (ensureStandardStreams_pipes _ _)
    · exact inv
  | advance =>
    simp only [TaskSystem.step]
    split_ifs with h
    · exact inv.advancePipe ops h
    · exact inv.advanceConsole (inv.apart s.running h)
  | key scancode => exact inv.key ops scancode
  | timer next =>
    simp only [TaskSystem.step]
    split_ifs
    · exact inv
    · refine ⟨inv.tame,inv.apart,fun hquiet => ?_⟩
      obtain ⟨hreader,hwriter,hconsole⟩ := inv.waits hquiet
      exact ⟨hreader,hwriter,hconsole⟩

theorem WakeInv.run (inv : WakeInv s) (ops : FsKind → FsOps σ) (actions : List TaskAction) :
    WakeInv (s.run ops actions) := by
  induction actions generalizing s with
  | nil => exact inv
  | cons a as ih => exact ih (inv.step ops a)

theorem WakeInv.boot (b : σ) : WakeInv (TaskSystem.boot b) := by
  refine ⟨fun t => trivial,fun t _ => rfl,fun _ => BlockedWait.of_none (fun t => rfl) ?_⟩
  intro t length h
  cases h

end Steps

/-- In every run, a task is between what it changed and its `task_wake_blocked`, or every
blocked task has something to wait for. -/
theorem no_lost_wakeup (ops : FsKind → FsOps σ) (b : σ) (actions : List TaskAction) :
    (∃ t, ((TaskSystem.run ops actions (TaskSystem.boot b)).pipes.activity t).isWaking=true) ∨
      (TaskSystem.run ops actions (TaskSystem.boot b)).BlockedWait := by
  by_cases hwaking : ∃ t,
      ((TaskSystem.run ops actions (TaskSystem.boot b)).pipes.activity t).isWaking=true
  · exact Or.inl hwaking
  refine Or.inr (((WakeInv.boot b).run ops actions).waits ?_)
  intro t
  by_contra h
  exact hwaking ⟨t,by simpa using h⟩

end ConeOS.Vfs
