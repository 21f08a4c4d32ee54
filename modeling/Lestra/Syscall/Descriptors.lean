import Lestra.Exec.Files
import Lestra.Syscall.Uaccess

/-!
# Descriptor system calls

`sys_close`, `sys_pipe`, `sys_dup`, `sys_dup2` and `sys_fcntl` of
`kernel/syscall/syscall.c`, on the descriptor table of the current process. The
close-on-exec flag is bit 31 of `flags`, the open flags are the 28 low bits.
-/

namespace Lestra

def errBadf : Int := -9

def errMfile : Int := -24

/-- `fd >= 0 && fd < MAX_FD_PER_PROC`, with the index it makes valid. -/
def fdIndex (fd : Int) : Option (Fin maxFdPerProc) :=
  if h : 0 ≤ fd ∧ fd < maxFdPerProc then some ⟨fd.toNat, by omega⟩ else none

/-- The lowest unused descriptor from `lo` on. -/
def lowestFree (fds : FdTable) (lo : Int) : Option (Fin maxFdPerProc) :=
  (List.finRange maxFdPerProc).find? fun i => lo ≤ i.val ∧ (fds i).type = .unused

-- ---------------------------------------------------------------------------
-- close and pipe
-- ---------------------------------------------------------------------------

def sysClose (t : PipeTable) (fds : FdTable) (fd : Int) : PipeTable × FdTable × Int :=
  match fdIndex fd with
  | none => (t, fds, errBadf)
  | some i =>
    if (fds i).type = .unused then (t, fds, errBadf)
    else (closeResource t (fds i), Function.update fds i fdUnused, 0)

/-- `sys_pipe`. The result is 0, and the two descriptors are stored at `userFds`. -/
def sysPipe (t : PipeTable) (fds : FdTable) (userFds : BitVec 64) :
    PipeTable × FdTable × Int × Option (Fin maxFdPerProc × Fin maxFdPerProc) :=
  if ¬ accessOk userFds 8#64 then (t, fds, errBadAddress, none)
  else
    match (List.finRange maxFdPerProc).filter fun i => (fds i).type = .unused with
    | r :: w :: _ =>
      match pipeCreate t with
      | (t, none) => (t, fds, -1, none)
      | (t, some (rfd, wfd)) =>
        (t, Function.update (Function.update fds r ⟨.pipe, rfd, 0, oRdonly⟩) w
          ⟨.pipe, wfd, 0, oWronly⟩, 0, some (r, w))
    | _ => (t, fds, errMfile, none)

-- ---------------------------------------------------------------------------
-- dup
-- ---------------------------------------------------------------------------

/-- `0x80000000`, the close-on-exec bit. -/
def cloexecBit : BitVec 32 := 0x80000000#32

/-- `FD_CLOEXEC` -/
def fdCloexec : BitVec 32 := 1#32

/-- `0x0FFFFFFF`, the bits of the open flags. -/
def openFlags : BitVec 32 := 0x0FFFFFFF#32

/-- `flags &= ~0x80000000; flags &= ~FD_CLOEXEC` -/
def dupEntry (e : FdEntry) : FdEntry :=
  { e with flags := e.flags &&& ~~~cloexecBit &&& ~~~fdCloexec }

def sysDup (fds : FdTable) (oldfd : Int) : FdTable × Int :=
  match fdIndex oldfd with
  | none => (fds, errBadf)
  | some o =>
    if (fds o).type = .unused then (fds, errBadf)
    else
      match lowestFree fds 3 with
      | none => (fds, errMfile)
      | some n => (Function.update fds n (dupEntry (fds o)), n.val)

def sysDup2 (t : PipeTable) (fds : FdTable) (oldfd newfd : Int) : PipeTable × FdTable × Int :=
  match fdIndex oldfd, fdIndex newfd with
  | none, _ => (t, fds, errBadf)
  | some _, none => (t, fds, errBadf)
  | some o, some n =>
    if o = n then
      if (fds o).type = .unused then (t, fds, errBadf) else (t, fds, newfd)
    else if (fds o).type = .unused then (t, fds, errBadf)
    else (closeResource t (fds n), Function.update fds n (fds o), newfd)

-- ---------------------------------------------------------------------------
-- fcntl
-- ---------------------------------------------------------------------------

def fDupfd : Int := 0
def fGetfd : Int := 1
def fSetfd : Int := 2
def fGetfl : Int := 3
def fSetfl : Int := 4

/-- `min_fd`: `(int)arg`, or 0 if that is negative. -/
def dupfdMin (arg : BitVec 64) : Int := max 0 (arg.setWidth 32).toInt

/-- `sys_fcntl`; `arg` is a `long`. -/
def sysFcntl (fds : FdTable) (fd cmd : Int) (arg : BitVec 64) : FdTable × Int :=
  match fdIndex fd with
  | none => (fds, errBadf)
  | some i =>
    let e := fds i
    if e.type = .unused then (fds, errBadf)
    else if cmd = fDupfd then
      if (maxFdPerProc : Int) ≤ dupfdMin arg then (fds, errInvalid)
      else
        match lowestFree fds (dupfdMin arg) with
        | none => (fds, errMfile)
        | some n => (Function.update fds n (dupEntry e), n.val)
    else if cmd = fGetfd then (fds, if e.flags &&& cloexecBit ≠ 0#32 then 1 else 0)
    else if cmd = fSetfd then
      let flags := if arg &&& 1#64 ≠ 0#64 then e.flags ||| cloexecBit else e.flags &&& ~~~cloexecBit
      (Function.update fds i { e with flags }, 0)
    else if cmd = fGetfl then (fds, (e.flags &&& openFlags).toInt)
    else if cmd = fSetfl then
      let flags := (e.flags &&& ~~~openFlags) ||| (arg.setWidth 32 &&& openFlags)
      (Function.update fds i { e with flags }, 0)
    else (fds, errInvalid)

end Lestra
