import Mathlib.Algebra.GroupWithZero.Nat
import Mathlib.Data.List.Nodup
import Mathlib.Data.List.Flatten

namespace ConeOS.Scheduling

inductive TaskState
  | ready
  | running
  | blocked
  | sleeping
  | zombie
  deriving DecidableEq, Repr

structure Task where
  id : Nat
  state : TaskState
  ownsSpace : Bool
  wakeAtMs : Nat
  deriving DecidableEq, Repr

/-- What `remove_zombies` gives back for a task, under the task's id. -/
inductive Release
  | stack (id : Nat)
  | faultStack (id : Nat)
  | space (id : Nat)
  deriving DecidableEq, Repr

def Release.id : Release → Nat
  | .stack id => id
  | .faultStack id => id
  | .space id => id

/-- The list behind `task_list`, cut at `current_task`, with the counters of task.c and the
ticks of pit.c. `yieldDue` marks the window of `task_sleep_ms` and `task_exit_current` between
their state change and their `task_yield`. -/
structure Scheduler where
  before : List Task
  current : Task
  after : List Task
  nextTaskId : Nat
  preemptionEnabled : Bool
  ticks : Nat
  yieldDue : Bool
  released : List Release
  deriving DecidableEq, Repr

def uint64Max : Nat := 2 ^ 64-1
def pitFrequencyHz : Nat := 100

namespace Scheduler

def tasks (s : Scheduler) : List Task := s.before ++ s.current :: s.after

def pitUptimeMs (s : Scheduler) : Nat := s.ticks*1000%2 ^ 64/pitFrequencyHz

def setCurrent (state : TaskState) (s : Scheduler) : Scheduler :=
  { s with current := { s.current with state := state } }

def mapTasks (f : Task → Task) (s : Scheduler) : Scheduler :=
  { s with before := s.before.map f, current := f s.current, after := s.after.map f }

/-- The state after `task_init`. -/
def boot : Scheduler :=
  { before := []
    current := ⟨0,.running,false,0⟩
    after := []
    nextTaskId := 1
    preemptionEnabled := false
    ticks := 0
    yieldDue := false
    released := [] }

end Scheduler

open Scheduler

def isZombie (t : Task) : Bool := t.state = .zombie

def releases (t : Task) : List Release :=
  [.stack t.id,.faultStack t.id] ++ if t.ownsSpace then [.space t.id] else []

/-- The walk starts behind the head of the list and passes over `current_task`. -/
def removeZombies (s : Scheduler) : Scheduler :=
  match s.before with
  | [] =>
    { s with
      after := s.after.filter (fun t => !isZombie t)
      released := s.released ++ (s.after.filter isZombie).flatMap releases }
  | head :: before =>
    { s with
      before := head :: before.filter (fun t => !isZombie t)
      after := s.after.filter (fun t => !isZombie t)
      released := s.released ++ ((before ++ s.after).filter isZombie).flatMap releases }

def wakeSleeper (now : Nat) (t : Task) : Task :=
  if t.state = .sleeping ∧ t.wakeAtMs≤now then { t with state := .ready } else t

/-- The list cut at its first ready task. -/
def splitReady : List Task → Option (List Task × Task × List Task)
  | [] => none
  | t :: ts =>
    if t.state = .ready then some ([],t,ts)
    else (splitReady ts).map (fun r => (t :: r.1, r.2.1, r.2.2))

/-- The circular walk of `next_ready_task` from the task behind the current one; `none` when it
comes back to where it started. -/
def focusNext (s : Scheduler) : Option Scheduler :=
  match splitReady s.after with
  | some (skipped,next,rest) =>
    some { s with before := s.before ++ s.current :: skipped, current := next, after := rest }
  | none =>
    match splitReady s.before with
    | some (skipped,next,rest) =>
      some { s with before := skipped, current := next, after := rest ++ s.current :: s.after }
    | none => none

def schedule (cleanZombies : Bool) (s : Scheduler) : Scheduler :=
  let s := if cleanZombies then removeZombies s else s
  let s := if s.current.state = .running then s.setCurrent .ready else s
  let s := s.mapTasks (wakeSleeper s.pitUptimeMs)
  let s := { s with yieldDue := false }
  match focusNext s with
  | some s => s.setCurrent .running
  -- no other task is ready: `next` is NULL or the previous task, which runs on in both cases
  | none => s.setCurrent .running

def taskYield (s : Scheduler) : Scheduler := schedule true s

def taskPreempt (s : Scheduler) : Scheduler :=
  if s.preemptionEnabled then schedule false s else s

/-- The three allocations can fail each on its own; `kernelSpace` tells whether the new task
runs in the kernel's space. -/
def taskCreateInSpace (task stack faultStack kernelSpace : Bool) (s : Scheduler) : Scheduler :=
  if !task || !stack || !faultStack then s
  else
    { s with
      after := s.after ++ [⟨s.nextTaskId,.ready,!kernelSpace,0⟩]
      nextTaskId := s.nextTaskId+1 }

/-- The loop stops at the first task with the id. -/
def cancelFirst (id : Nat) : List Task → List Task
  | [] => []
  | t :: ts =>
    if t.id=id then (if t.state = .ready then { t with state := .zombie } else t) :: ts
    else t :: cancelFirst id ts

def taskCancelReady (id : Nat) (s : Scheduler) : Scheduler :=
  if s.before.any (fun t => t.id=id) then { s with before := cancelFirst id s.before }
  else if s.current.id=id then s
  else { s with after := cancelFirst id s.after }

def taskBlockCurrentIf (shouldBlock : Bool) (s : Scheduler) : Scheduler :=
  if !shouldBlock then s else taskYield (s.setCurrent .blocked)

def wakeBlocked (t : Task) : Task :=
  if t.state = .blocked then { t with state := .ready } else t

def taskWakeBlocked (s : Scheduler) : Scheduler := s.mapTasks wakeBlocked

/-- `task_sleep_ms` up to the end of its interrupt-locked section. -/
def taskSleepMs (milliseconds : Nat) (s : Scheduler) : Scheduler :=
  if milliseconds=0 then taskYield s
  else
    let now := s.pitUptimeMs
    let wakeAt := if milliseconds > uint64Max-now then uint64Max else now+milliseconds
    { s with current := { s.current with wakeAtMs := wakeAt, state := .sleeping }, yieldDue := true }

/-- `task_exit_current` up to its `task_yield`. -/
def taskExitCurrent (s : Scheduler) : Scheduler :=
  { s.setCurrent .zombie with yieldDue := true }

inductive Op
  | create (task stack faultStack kernelSpace : Bool)
  | yield
  | preempt
  | enablePreemption
  | blockIf (shouldBlock : Bool)
  | wakeBlocked
  | sleep (milliseconds : Nat)
  | exit
  | cancelReady (id : Nat)
  | count
  | tick
  deriving DecidableEq, Repr

/-- What can come between a state change and the yield that follows it: the yield itself, or
an interrupt. -/
def Op.passesYield : Op → Bool
  | .yield => true
  | .preempt => true
  | .wakeBlocked => true
  | .tick => true
  | _ => false

def perform (s : Scheduler) : Op → Scheduler
  | .create task stack faultStack kernelSpace =>
    taskCreateInSpace task stack faultStack kernelSpace s
  | .yield => taskYield s
  | .preempt => taskPreempt s
  | .enablePreemption => { s with preemptionEnabled := true }
  | .blockIf shouldBlock => taskBlockCurrentIf shouldBlock s
  | .wakeBlocked => taskWakeBlocked s
  | .sleep milliseconds => taskSleepMs milliseconds s
  | .exit => taskExitCurrent s
  | .cancelReady id => taskCancelReady id s
  | .count => removeZombies s
  | .tick => { s with ticks := (s.ticks+1)%2 ^ 64 }

def step (s : Scheduler) (op : Op) : Scheduler :=
  if s.yieldDue && !op.passesYield then s else perform s op

def run (s : Scheduler) (ops : List Op) : Scheduler := ops.foldl step s

end ConeOS.Scheduling
