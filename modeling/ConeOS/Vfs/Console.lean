import ConeOS.Vfs.PipeSystem

namespace ConeOS.Vfs

def keyboardBufferSize : Nat := 64

/-- The static state of ps2.c: the ring of characters and the modifier keys. -/
structure Keyboard where
  buffer : Nat → UInt8
  head : Nat
  tail : Nat
  shiftLeft : Bool
  shiftRight : Bool
  capsLock : Bool

/-- Runs of neighbouring keys, each from its first scancode on. -/
def keymapRuns : List (Nat × String) :=
  [(0x02, "1234567890-=\x08\t"),(0x10, "qwertyuiop[]\r"),(0x1E, "asdfghjkl;\x27\x60"),
    (0x2B, "\\zxcvbnm,./"),(0x39, " ")]

def shiftedKeymapRuns : List (Nat × String) :=
  [(0x02, "!@#$%^&*()_+"),(0x1A, "\x7b\x7d"),(0x27, ":\"~"),(0x2B, "|"),(0x33, "<>?")]

/-- The entry of a key table; keys without one have 0. -/
def keyAt (runs : List (Nat × String)) (scancode : Nat) : UInt8 :=
  (runs.findSome? (fun (first,keys) =>
    if first ≤ scancode then (keys.toList[scancode-first]?).map (fun c => UInt8.ofNat c.toNat)
    else none)).getD 0

/-- The character of a key under the modifiers; 0 for none. -/
def Keyboard.character (k : Keyboard) (scancode : Nat) : UInt8 :=
  let c := keyAt keymapRuns scancode
  let shifted := k.shiftLeft || k.shiftRight
  if 97≤c ∧ c≤122 then if shifted != k.capsLock then c-32 else c
  else if shifted && keyAt shiftedKeymapRuns scancode != 0 then keyAt shiftedKeymapRuns scancode
  else c

/-- `keyboard_handler` for the scancode it read, and whether it ran `task_wake_blocked`. -/
def keyboardHandler (scancode : UInt8) (k : Keyboard) : Bool × Keyboard :=
  if scancode=0x2A then (false, { k with shiftLeft := true })
  else if scancode=0x36 then (false, { k with shiftRight := true })
  else if scancode=0xAA then (false, { k with shiftLeft := false })
  else if scancode=0xB6 then (false, { k with shiftRight := false })
  else if scancode=0x3A then (false, { k with capsLock := !k.capsLock })
  else if 128 ≤ scancode then (false,k)
  else if keyAt keymapRuns scancode.toNat=0 then (false,k)
  else
    let next := (k.head+1)%keyboardBufferSize
    if next=k.tail then (false,k)
    else
      (true, { k with
        buffer := Function.update k.buffer k.head (k.character scancode.toNat)
        head := next })

def keyboardReadChar (k : Keyboard) : Option (UInt8 × Keyboard) :=
  if k.tail=k.head then none
  else some (k.buffer k.tail, { k with tail := (k.tail+1)%keyboardBufferSize })

def keyboardCharAvailable (k : Keyboard) : Bool := k.tail != k.head

def keyboardInputWaiting (k : Keyboard) : Bool := !keyboardCharAvailable k

/-- Where a task stands in the console loop of `devfs_read`: taking characters, before
`task_block_current_if`, or blocked there. -/
inductive ConsoleRead
  | outside
  | reading (length : Nat) (taken : List UInt8)
  | parking (length : Nat)
  | blocked (length : Nat)
  deriving DecidableEq

/-- The tasks around the pipes and the console, one of which runs. -/
structure TaskSystem (σ : Type) where
  pipes : System σ
  keyboard : Keyboard
  console : Nat → ConsoleRead
  running : Nat

/-- What the running task does next, a key, or the timer giving the processor to another task. -/
inductive TaskAction
  | call (c : TableCall)
  | read (number : Int) (length : Nat)
  | write (number : Int) (buffer : List UInt8)
  | advance
  | key (scancode : UInt8)
  | timer (next : Nat)

def Activity.isBlocked : Activity → Bool
  | .readerBlocked _ _ => true
  | .writerBlocked _ _ _ => true
  | _ => false

def Activity.isWaking : Activity → Bool
  | .waking _ => true
  | _ => false

def ConsoleRead.wake : ConsoleRead → ConsoleRead
  | .blocked length => .reading length []
  | r => r

section Steps

variable {σ : Type}

namespace TaskSystem

/-- `task_wake_blocked`. -/
def taskWakeBlocked (s : TaskSystem σ) : TaskSystem σ :=
  { s with
    pipes := { s.pipes with activity := fun t => (s.pipes.activity t).wake }
    console := fun t => (s.console t).wake }

def setConsole (s : TaskSystem σ) (r : ConsoleRead) : TaskSystem σ :=
  { s with console := Function.update s.console s.running r }

/-- The running task is outside the calls again, with this status and count. -/
def returns (s : TaskSystem σ) (status : Int) (count : Nat) : TaskSystem σ :=
  { s with pipes := s.pipes.setActivity s.running (.idle status count) }

/-- `devfs_read` up to the console loop. -/
def devfsRead (device : DevfsDevice) (length : Nat) (s : TaskSystem σ) : TaskSystem σ :=
  match device with
  | .null => s.returns 0 0
  | .zero => s.returns 0 length
  | .none => s.returns (-1) 0
  | .console => if length=0 then s.returns 0 0 else s.setConsole (.reading length [])

/-- `vfs_read` up to its first loop. A regular file is read without waiting, and what the read
gives is left open. -/
def vfsRead (ops : FsKind → FsOps σ) (number : Int) (length : Nat) (s : TaskSystem σ) :
    TaskSystem σ :=
  let s := { s with pipes := (s.pipes.step ops (.read s.running number length)).1 }
  match lookup s.pipes.vfs s.running number with
  | none => s
  | some i =>
    let fd := s.pipes.vfs.descriptors i
    if fd.pipeMode ≠ .none then s
    else if number=1 ∨ number=2 then s.returns (-1) 0
    else if fd.device ≠ .none then devfsRead fd.device length s
    else if number<3 then s.returns (-1) 0
    else s

/-- One round of the console loop of `devfs_read`, a character at a time. -/
def advanceConsole (s : TaskSystem σ) : TaskSystem σ :=
  match s.console s.running with
  | .outside => s
  | .reading length taken =>
    if taken.length<length then
      match keyboardReadChar s.keyboard with
      | some (value,keyboard) =>
        { s with keyboard := keyboard }.setConsole (.reading length (taken ++ [value]))
      | none =>
        if taken.length=0 then s.setConsole (.parking length)
        else (s.setConsole .outside).returns 0 taken.length
    else (s.setConsole .outside).returns 0 taken.length
  | .parking length =>
    if keyboardInputWaiting s.keyboard then s.setConsole (.blocked length)
    else s.setConsole (.reading length [])
  | .blocked _ => s

/-- A pending `task_wake_blocked` wakes the readers of the console as well. -/
def advancePipe (ops : FsKind → FsOps σ) (s : TaskSystem σ) : TaskSystem σ :=
  let woken := if (s.pipes.activity s.running).isWaking then s.taskWakeBlocked else s
  { woken with pipes := (s.pipes.step ops (.advance s.running)).1 }

def isOutside (s : TaskSystem σ) : Bool :=
  decide (s.console s.running = .outside) && (s.pipes.activity s.running).isIdle

def isBlocked (s : TaskSystem σ) (task : Nat) : Bool :=
  (s.pipes.activity task).isBlocked ||
    match s.console task with
    | .blocked _ => true
    | _ => false

def step (ops : FsKind → FsOps σ) (s : TaskSystem σ) : TaskAction → TaskSystem σ
  | .call c =>
    if s.isOutside then { s with pipes := (s.pipes.step ops (.call s.running c)).1 } else s
  | .read number length => if s.isOutside then vfsRead ops number length s else s
  | .write number buffer =>
    if s.isOutside then { s with pipes := (s.pipes.step ops (.write s.running number buffer)).1 }
    else s
  | .advance => if s.console s.running = .outside then advancePipe ops s else advanceConsole s
  | .key scancode =>
    match keyboardHandler scancode s.keyboard with
    | (true,keyboard) => { s with keyboard := keyboard }.taskWakeBlocked
    | (false,keyboard) => { s with keyboard := keyboard }
  | .timer next => if s.isBlocked next then s else { s with running := next }

def boot (b : σ) : TaskSystem σ :=
  { pipes := System.boot b
    keyboard := ⟨fun _ => 0,0,0,false,false,false⟩
    console := fun _ => .outside
    running := 0 }

def run (ops : FsKind → FsOps σ) (actions : List TaskAction) (s : TaskSystem σ) : TaskSystem σ :=
  actions.foldl (step ops) s

/-- No call is between what it changed and its `task_wake_blocked`. -/
def Quiet (s : TaskSystem σ) : Prop := ∀ t, (s.pipes.activity t).isWaking=false

/-- Whoever is blocked has something to wait for. -/
structure BlockedWait (s : TaskSystem σ) : Prop where
  reader : ∀ t k length, s.pipes.activity t = .readerBlocked k length →
    pipeReaderShouldWait (s.pipes.vfs.pipes k)=true
  writer : ∀ t k buffer total, s.pipes.activity t = .writerBlocked k buffer total →
    pipeWriterShouldWait (s.pipes.vfs.pipes k)=true
  console : ∀ t length, s.console t = .blocked length → keyboardInputWaiting s.keyboard=true

end TaskSystem

end Steps

end ConeOS.Vfs
