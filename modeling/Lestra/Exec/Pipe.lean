import Lestra.Sched.Schedule

/-!
# Pipes

`kernel/exec/pipe.c`: the table of pipes, the table of pipe descriptors, and the
calls on them. A call that blocks leaves the rest of its loop in `calls`, the
part of the kernel stack that matters here; `pipeResume` is that rest. A process
that blocked without a switch is still the current one and goes on at once; one
that was switched away from may go on later or never.
-/

namespace Lestra

def maxPipes : Nat := 16

def pipeBufSize : Nat := 4096

def pipeFdBase : Int := 200

def maxPipeFds : Nat := 32

/-- `struct pipe`. The bytes of `buf` beyond `PIPE_BUF_SIZE` are never used. -/
structure Pipe where
  inUse : Bool
  buf : Nat → UInt8
  readPos : Nat
  writePos : Nat
  bytesAvailable : Nat
  readOpen : Bool
  writeOpen : Bool
  readWaiter : Int
  writeWaiter : Int

/-- `memset(&pipes[pi], 0, sizeof(pipes[pi]))` -/
def zeroPipe : Pipe := ⟨false, fun _ => 0, 0, 0, 0, false, false, 0, 0⟩

structure PipeFd where
  inUse : Bool
  pipeIdx : Fin maxPipes
  isWriteEnd : Bool
deriving DecidableEq, Repr

structure PipeTable where
  pipes : Fin maxPipes → Pipe
  pipeFds : Fin maxPipeFds → PipeFd

/-- The tables at boot. -/
def pipeInit : PipeTable where
  pipes := fun _ => zeroPipe
  pipeFds := fun _ => ⟨false, ⟨0, by decide⟩, false⟩

namespace PipeTable

def setPipe (t : PipeTable) (pi : Fin maxPipes) (p : Pipe) : PipeTable :=
  { t with pipes := Function.update t.pipes pi p }

def setFd (t : PipeTable) (i : Fin maxPipeFds) (pfd : PipeFd) : PipeTable :=
  { t with pipeFds := Function.update t.pipeFds i pfd }

end PipeTable

-- ---------------------------------------------------------------------------
-- Descriptors
-- ---------------------------------------------------------------------------

/-- `i + PIPE_FD_BASE` -/
def pipeFdOf (i : Fin maxPipeFds) : Int := pipeFdBase + i.val

/-- `pipe_is_pipe_fd`, with the index it makes valid. -/
def pipeIsPipeFd (t : PipeTable) (fd : Int) : Option (Fin maxPipeFds) :=
  if h : pipeFdBase ≤ fd ∧ fd < pipeFdBase + maxPipeFds then
    let i : Fin maxPipeFds := ⟨(fd - pipeFdBase).toNat, by omega⟩
    if (t.pipeFds i).inUse then some i else none
  else none

/-- The pipe that `pipe_create` takes. -/
def freePipe (t : PipeTable) : Option (Fin maxPipes) :=
  (List.finRange maxPipes).find? fun i => (t.pipes i).inUse = false

/-- `pipe_create`, with the global descriptors of the read and the write end. -/
def pipeCreate (t : PipeTable) : PipeTable × Option (Int × Int) :=
  match freePipe t with
  | none => (t, none)
  | some pi =>
    let pipe := { zeroPipe with inUse := true, readOpen := true, writeOpen := true }
    match (List.finRange maxPipeFds).filter fun i => (t.pipeFds i).inUse = false with
    | [] => (t.setPipe pi { pipe with inUse := false }, none)
    | [r] => ((t.setPipe pi { pipe with inUse := false }).setFd r ⟨false, pi, false⟩, none)
    | r :: w :: _ =>
      (((t.setPipe pi pipe).setFd r ⟨true, pi, false⟩).setFd w ⟨true, pi, true⟩,
        some (pipeFdOf r, pipeFdOf w))

/-- `pipe_close` -/
def pipeClose (t : PipeTable) (fd : Int) : PipeTable × Int :=
  match pipeIsPipeFd t fd with
  | none => (t, -1)
  | some i =>
    let pfd := t.pipeFds i
    let p := t.pipes pfd.pipeIdx
    let p := if pfd.isWriteEnd then { p with writeOpen := false } else { p with readOpen := false }
    let p := if !p.readOpen ∧ !p.writeOpen then { p with inUse := false } else p
    ((t.setFd i { pfd with inUse := false }).setPipe pfd.pipeIdx p, 0)

-- ---------------------------------------------------------------------------
-- Reading and writing
-- ---------------------------------------------------------------------------

/-- One turn of the copying loop of `pipe_read`. -/
def Pipe.pop (p : Pipe) : Pipe × UInt8 :=
  ({ p with readPos := (p.readPos + 1) % pipeBufSize, bytesAvailable := p.bytesAvailable - 1 },
    p.buf p.readPos)

/-- The copying loop: `n` bytes. -/
def Pipe.popMany : Pipe → Nat → Pipe × List UInt8
  | p, 0 => (p, [])
  | p, n + 1 =>
    let (p, b) := p.pop
    let (p, bs) := p.popMany n
    (p, b :: bs)

/-- The three statements of `pipe_write` that store a byte. -/
def Pipe.push (p : Pipe) (b : UInt8) : Pipe :=
  { p with
    buf := Function.update p.buf p.writePos b
    writePos := (p.writePos + 1) % pipeBufSize
    bytesAvailable := p.bytesAvailable + 1 }

/-- What is left of a call that called `task_block`: `pipe_read` of at most
`count` bytes, or `pipe_write` of the bytes `rest` after `written` bytes. -/
inductive PipeCall where
  | read (pi : Fin maxPipes) (count : Nat)
  | write (pi : Fin maxPipes) (rest : List UInt8) (written : Nat)
deriving DecidableEq, Repr

/-- The pipe a call works on. -/
def PipeCall.pipe : PipeCall → Fin maxPipes
  | .read pi _ => pi
  | .write pi _ _ => pi

structure PipeSys where
  sched : Sched
  table : PipeTable
  calls : Fin maxProcs → Option PipeCall

/-- How one turn of a call ends: in a value (`none` when it blocks), with the
bytes that it moved out of the pipe or into it. -/
structure PipeResult where
  ret : Option Int
  moved : List UInt8
deriving DecidableEq, Repr

namespace PipeSys

def setPipe (s : PipeSys) (pi : Fin maxPipes) (p : Pipe) : PipeSys :=
  { s with table := s.table.setPipe pi p }

/-- `task_block()` inside a call of process `c`: what is left of it stays on its stack. -/
def block (s : PipeSys) (c : Fin maxProcs) (call : PipeCall) : PipeSys × PipeResult :=
  ({ s with sched := taskBlock s.sched, calls := Function.update s.calls c (some call) },
    ⟨none, []⟩)

/-- The call of process `c` returns `n`. -/
def finish (s : PipeSys) (c : Fin maxProcs) (n : Int) (moved : List UInt8) :
    PipeSys × PipeResult :=
  ({ s with calls := Function.update s.calls c none }, ⟨some n, moved⟩)

/-- `if (p->write_waiter > 0) { task_unblock_pid(p->write_waiter); p->write_waiter = 0; }` -/
def wakeWriter (s : PipeSys) (pi : Fin maxPipes) : PipeSys :=
  let p := s.table.pipes pi
  if 0 < p.writeWaiter then
    { s with sched := taskUnblockPid s.sched p.writeWaiter }.setPipe pi { p with writeWaiter := 0 }
  else s

/-- The same for `read_waiter`. -/
def wakeReader (s : PipeSys) (pi : Fin maxPipes) : PipeSys :=
  let p := s.table.pipes pi
  if 0 < p.readWaiter then
    { s with sched := taskUnblockPid s.sched p.readWaiter }.setPipe pi { p with readWaiter := 0 }
  else s

/-- `pipe_read` from the top of its waiting loop. -/
def readFrom (s : PipeSys) (c : Fin maxProcs) (pi : Fin maxPipes) (count : Nat) :
    PipeSys × PipeResult :=
  let p := s.table.pipes pi
  if p.bytesAvailable = 0 then
    if !p.writeOpen then s.finish c 0 []
    else (s.setPipe pi { p with readWaiter := procGetpid s.sched }).block c (.read pi count)
  else
    let toRead := min count p.bytesAvailable
    let (p, bytes) := p.popMany toRead
    ((s.setPipe pi p).wakeWriter pi).finish c toRead bytes

/-- `pipe_write` from the top of its loop, with the bytes not yet written. -/
def writeFrom (s : PipeSys) (c : Fin maxProcs) (pi : Fin maxPipes) :
    List UInt8 → Nat → PipeSys × PipeResult
  | [], written => s.finish c written []
  | b :: bs, written =>
    let p := s.table.pipes pi
    if pipeBufSize ≤ p.bytesAvailable then
      if !p.readOpen then s.finish c (-32) []
      else (s.setPipe pi { p with writeWaiter := procGetpid s.sched }).block c
        (.write pi (b :: bs) written)
    else
      let (s, r) := ((s.setPipe pi (p.push b)).wakeReader pi).writeFrom c pi bs (written + 1)
      (s, { r with moved := b :: r.moved })

/-- `pipe_read`, called by process `c`. -/
def pipeRead (s : PipeSys) (c : Fin maxProcs) (fd : Int) (count : Nat) : PipeSys × PipeResult :=
  match pipeIsPipeFd s.table fd with
  | none => s.finish c (-1) []
  | some i =>
    if (s.table.pipeFds i).isWriteEnd then s.finish c (-1) []
    else s.readFrom c (s.table.pipeFds i).pipeIdx count

/-- `pipe_write`, called by process `c`. -/
def pipeWrite (s : PipeSys) (c : Fin maxProcs) (fd : Int) (bytes : List UInt8) :
    PipeSys × PipeResult :=
  match pipeIsPipeFd s.table fd with
  | none => s.finish c (-1) []
  | some i =>
    if !(s.table.pipeFds i).isWriteEnd then s.finish c (-1) []
    else
      let pi := (s.table.pipeFds i).pipeIdx
      if !(s.table.pipes pi).readOpen then s.finish c (-32) []
      else s.writeFrom c pi bytes 0

/-- Process `c` goes on after `task_block` returned. -/
def pipeResume (s : PipeSys) (c : Fin maxProcs) : PipeCall → PipeSys × PipeResult
  | .read pi count =>
    (s.setPipe pi { s.table.pipes pi with readWaiter := 0 }).readFrom c pi count
  | .write pi rest written =>
    (s.setPipe pi { s.table.pipes pi with writeWaiter := 0 }).writeFrom c pi rest written

end PipeSys

end Lestra
