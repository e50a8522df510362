import ConeOS.Vfs.Pipe
import ConeOS.Vfs.TableInvariant

namespace ConeOS.Vfs

open ConeOS.Library

/-- Where a task stands in `pipe_read` or `pipe_write`: before the locked section, before
`task_block_current_if`, blocked there, or before a `task_wake_blocked` that goes on with
`next`. An idle task is outside both, the last of which returned `status` after moving
`transferred` bytes. -/
inductive Activity
  | idle (status : Int) (transferred : Nat)
  | reading (pipe : PipeRef) (length : Nat)
  | readerParking (pipe : PipeRef) (length : Nat)
  | readerBlocked (pipe : PipeRef) (length : Nat)
  | writing (pipe : PipeRef) (buffer : List UInt8) (total : Nat)
  | writerParking (pipe : PipeRef) (buffer : List UInt8) (total : Nat)
  | writerBlocked (pipe : PipeRef) (buffer : List UInt8) (total : Nat)
  | waking (next : Activity)

structure System (σ : Type) where
  vfs : VfsState σ
  activity : Nat → Activity

inductive Event
  | created (pipe : PipeRef)
  | delivered (task : Nat) (pipe : PipeRef) (length : Nat) (bytes : List UInt8)
  | accepted (task : Nat) (pipe : PipeRef) (bytes : List UInt8)

/-- A call may name any owner: exit and kill close the descriptors of other tasks, also of
one that is inside `pipe_read`. -/
inductive Action
  | call (task : Nat) (c : TableCall)
  | read (task : Nat) (number : Int) (length : Nat)
  | write (task : Nat) (number : Int) (buffer : List UInt8)
  | advance (task : Nat)

def Activity.isIdle : Activity → Bool
  | .idle _ _ => true
  | _ => false

/-- `task_wake_blocked` as it meets one task. -/
def Activity.wake : Activity → Activity
  | .readerBlocked k length => .reading k length
  | .writerBlocked k buffer total => .writing k buffer total
  | a => a

section Steps

variable {σ : Type}

def System.setActivity (s : System σ) (task : Nat) (a : Activity) : System σ :=
  { s with activity := Function.update s.activity task a }

def System.setPipe (s : System σ) (k : PipeRef) (p : VfsPipe) : System σ :=
  { s with vfs := { s.vfs with pipes := Function.update s.vfs.pipes k p } }

/-- `vfs_read` up to the loop of `pipe_read`. Descriptors that are no pipe ends are read
elsewhere. -/
def enterRead (task : Nat) (number : Int) (length : Nat) (s : System σ) :
    System σ × List Event :=
  let s := { s with vfs := ensureStandardStreams task s.vfs }
  match lookup s.vfs task number with
  | none => (s.setActivity task (.idle (-1) 0), [])
  | some i =>
    let fd := s.vfs.descriptors i
    if fd.pipeMode = .none then (s, [])
    else
      match fd.pipe with
      | none => (s.setActivity task (.idle (-1) 0), [])
      | some k =>
        if fd.pipeMode ≠ .read then (s.setActivity task (.idle (-1) 0), [])
        else if length=0 then (s.setActivity task (.idle 0 0), [.delivered task k 0 []])
        else (s.setActivity task (.reading k length), [])

/-- `vfs_write` up to the loop of `pipe_write`. -/
def enterWrite (task : Nat) (number : Int) (buffer : List UInt8) (s : System σ) :
    System σ :=
  let s := { s with vfs := ensureStandardStreams task s.vfs }
  match lookup s.vfs task number with
  | none => s.setActivity task (.idle (-1) 0)
  | some i =>
    let fd := s.vfs.descriptors i
    if buffer.length > ramfsDataSize then s.setActivity task (.idle (-1) 0)
    else if fd.pipeMode = .none then s
    else
      match fd.pipe with
      | none => s.setActivity task (.idle (-1) 0)
      | some k =>
        if fd.pipeMode ≠ .write then s.setActivity task (.idle (-1) 0)
        else if 0<buffer.length then s.setActivity task (.writing k buffer 0)
        else s.setActivity task (.idle 0 0)

/-- One interrupt-locked section of a task inside `pipe_read` or `pipe_write`. -/
def advance (task : Nat) (s : System σ) : System σ × List Event :=
  match s.activity task with
  | .idle _ _ => (s, [])
  | .reading k length =>
    match readSection length (s.vfs.pipes k) with
    | (.took bytes,p) =>
      ((s.setPipe k p).setActivity task (.waking (.idle 0 bytes.length)),
        [.delivered task k length bytes])
    | (.endOfFile,p) =>
      ((s.setPipe k p).setActivity task (.idle 0 0), [.delivered task k length []])
    | (.wait,p) => ((s.setPipe k p).setActivity task (.readerParking k length), [])
  | .readerParking k length =>
    if pipeReaderShouldWait (s.vfs.pipes k) then
      (s.setActivity task (.readerBlocked k length), [])
    else (s.setActivity task (.reading k length), [])
  | .readerBlocked _ _ => (s, [])
  | .writing k buffer total =>
    match writeSection buffer total (s.vfs.pipes k) with
    | (.noReader,p) =>
      ((s.setPipe k p).setActivity task (.idle (if total=0 then -1 else 0) total), [])
    | (.put bytes,p) =>
      let total := total+bytes.length
      let next := if total<buffer.length then Activity.writing k buffer total
        else .idle 0 total
      ((s.setPipe k p).setActivity task (.waking next), [.accepted task k bytes])
    | (.wait,p) => ((s.setPipe k p).setActivity task (.writerParking k buffer total), [])
  | .writerParking k buffer total =>
    if pipeWriterShouldWait (s.vfs.pipes k) then
      (s.setActivity task (.writerBlocked k buffer total), [])
    else (s.setActivity task (.writing k buffer total), [])
  | .writerBlocked _ _ _ => (s, [])
  | .waking next =>
    let woken : System σ := { s with activity := fun t => (s.activity t).wake }
    (woken.setActivity task next, [])

/-- The pipes a call took into use. -/
def createdPipes (v w : VfsState σ) : List PipeRef :=
  (List.finRange vfsMaxPipes).filter (fun k => !(v.pipes k).used && (w.pipes k).used)

def runCall (ops : FsKind → FsOps σ) (task : Nat) (c : TableCall) (s : System σ) :
    System σ × List Event :=
  let r := c.run ops s.vfs
  let next := Activity.idle r.value 0
  ({ s with vfs := r.state }.setActivity task (if r.wakes then .waking next else next),
    (createdPipes s.vfs r.state).map .created)

/-- One step of the system; a task enters a call only from outside the others. -/
def System.step (ops : FsKind → FsOps σ) (s : System σ) : Action → System σ × List Event
  | .call task c => if (s.activity task).isIdle then runCall ops task c s else (s, [])
  | .read task number length =>
    if (s.activity task).isIdle then enterRead task number length s else (s, [])
  | .write task number buffer =>
    if (s.activity task).isIdle then (enterWrite task number buffer s, []) else (s, [])
  | .advance task => advance task s

def System.boot (b : σ) : System σ := ⟨vfsInit b,fun _ => .idle 0 0⟩

/-- A whole run, with everything that happened in step order. -/
def System.run (ops : FsKind → FsOps σ) :
    List Action → System σ × List Event → System σ × List Event
  | [], r => r
  | a :: as, (s,log) => System.run ops as ((s.step ops a).1, log ++ (s.step ops a).2)

end Steps

/-- What went into and came out of a pipe since it was last taken into use. -/
structure History where
  accepted : List UInt8
  delivered : List UInt8

def History.record (k : PipeRef) (h : History) : Event → History
  | .created j => if j=k then ⟨[],[]⟩ else h
  | .delivered _ j _ bytes => if j=k then { h with delivered := h.delivered ++ bytes } else h
  | .accepted _ j bytes => if j=k then { h with accepted := h.accepted ++ bytes } else h

def history (k : PipeRef) (log : List Event) : History :=
  log.foldl (History.record k) ⟨[],[]⟩

end ConeOS.Vfs
