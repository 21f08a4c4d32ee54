import Lestra.Sched.Fork
import Lestra.Syscall.Uaccess

/-!
# Creation, exit and waiting

`proc_create`, `sched_start_first`, `proc_exit`, `proc_reap`, `proc_wait` and
`proc_wait_blocking` of `kernel/sched/scheduler.c`, and the system calls
`sys_waitpid` and `sys_setuid`. What `elf_load` did, and whether `kmalloc` found
memory, are parameters.
-/

namespace Lestra

-- ---------------------------------------------------------------------------
-- Creation
-- ---------------------------------------------------------------------------

/-- What `elf_load` leaves behind: the memory and, if it loaded the image, the entry
point, the page tables and the stack pointer. -/
structure ElfLoad where
  machine : Machine
  image : Option (BitVec 64 × Nat × BitVec 64)

/-- `0x00007FFFFFE00000ULL - (256 * 1024)` -/
def userStackBottom : BitVec 64 := 0x00007FFFFFDC0000#64

/-- The first return of a new process to user mode. -/
def createState (entry userStackPtr : BitVec 64) : CpuState :=
  { zeroState with
    rip := entry
    cs := 0x23#64
    rflags := 0x202#64
    rsp := userStackPtr
    ss := 0x1B#64 }

/-- `proc_create` -/
def procCreate (k : Kernel) (name : List UInt8) (elf : ElfLoad) (kstack : Nat) : Kernel × Int :=
  match findFreeProc k.sched with
  | none => (k, -1)
  | some c =>
    let s := k.sched.modify c fun _ => procInitPerProcessState zeroProcess
    let p := { s.procs c with
      pid := s.nextPid
      state := .runnable
      parentPid := procGetpid s
      name := name.take 31 }
    let s := s.bumpPid
    match elf.image with
    | none =>
      ({ k with
          machine := elf.machine, sched := s.modify c fun _ => { p with state := .free } }, -1)
    | some (entry, pml4, userStackPtr) =>
      let p := { p with pml4 := pml4, stackBottom := userStackBottom }
      if kstack = 0 then
        ({ k with
            machine := vmmDestroyAddressSpace elf.machine pml4
            sched := s.modify c fun _ => { p with state := .free } }, -1)
      else
        let p := { p with
          kernelStack := kstack
          savedState := some (createState entry userStackPtr)
          fds := fdTableInit }
        ({ k with machine := elf.machine, sched := s.modify c fun _ => p }, p.pid)

/-- `sched_start_first` up to the jump to user mode; `none` when it gives up.
`stack` is `pid1_kstack`. -/
def schedStartFirst (k : Kernel) (name : List UInt8) (elf : ElfLoad) (kstack stack : Nat) :
    Option Kernel :=
  let (k, pid) := procCreate k name elf kstack
  if pid < 0 then none
  else
    match schedFindByPid k.sched pid with
    | none => none
    | some i =>
      let s := { k.sched with current := some i, schedulerEnabled := true }
      some { k with sched := s.modify i fun p =>
        { p with state := .running, kernelStack := stack } }

-- ---------------------------------------------------------------------------
-- Exit
-- ---------------------------------------------------------------------------

/-- Re-parent the surviving children of `pid` to init. -/
def reparent (s : Sched) (pid : Int) : Sched :=
  s.forProcs fun s i =>
    if (s.procs i).state = .free ∨ (s.procs i).state = .zombie then s
    else if (s.procs i).parentPid = pid then s.modify i fun p => { p with parentPid := 1 }
    else s

/-- The end of `proc_exit`: wake the parent if it is blocked. -/
def wakeParent (s : Sched) (parentPid : Int) : Sched := taskUnblockPid s parentPid

/-- `proc_exit` before its call of `schedule`. -/
def buryProcess (s : Sched) (c : Fin maxProcs) (status : Int) : Sched :=
  let s := reparent s (s.procs c).pid
  let s := if 0 < (s.procs c).parentPid then (signalKill s (s.procs c).parentPid 17).1 else s
  let s := s.modify c fun p =>
    { p with needsKstackFree := true, state := .zombie, exitStatus := status }
  wakeParent s (s.procs c).parentPid

def procExit (k : Kernel) (status : Int) : Kernel :=
  match k.sched.current with
  | none => k
  | some c =>
    let (pipes, fds) := fdTableCloseAll k.pipes (k.sched.procs c).fds
    let s := k.sched.modify c fun p => { p with fds := fds }
    { k with pipes, sched := schedule (buryProcess s c status) }

-- ---------------------------------------------------------------------------
-- Waiting
-- ---------------------------------------------------------------------------

/-- `proc_reap`. The heap that `kfree` returns the kernel stack to is not modelled. -/
def procReap (k : Kernel) (i : Fin maxProcs) : Kernel :=
  let p := k.sched.procs i
  let (pipes, fds) := fdTableCloseAll k.pipes p.fds
  { k with
    pipes
    machine := if p.pml4 = 0 then k.machine else vmmDestroyAddressSpace k.machine p.pml4
    sched := k.sched.modify i fun p => { p with fds := fds, pml4 := 0, kernelStack := 0 } }

/-- Reap the zombie in slot `i` and free the slot. The results are its pid and status. -/
def collect (k : Kernel) (i : Fin maxProcs) : Kernel × Int × Option Int :=
  let p := k.sched.procs i
  let k := procReap k i
  ({ k with sched := k.sched.setState i .free }, p.pid, some p.exitStatus)

/-- `proc_wait`. The last component is what it stores through `status`. -/
def procWait (k : Kernel) (pid : Int) : Kernel × Int × Option Int :=
  match k.sched.current with
  | none => (k, -1, none)
  | some c =>
    match (List.finRange maxProcs).find? fun i =>
        (k.sched.procs i).pid = pid ∧ (k.sched.procs i).parentPid = (k.sched.procs c).pid with
    | none => (k, -1, none)
    | some i => if (k.sched.procs i).state = .zombie then collect k i else (k, 0, none)

/-- The children that `proc_wait_blocking` looks at. -/
def waitMatches (s : Sched) (c : Fin maxProcs) (pid : Int) (i : Fin maxProcs) : Bool :=
  (s.procs i).parentPid = (s.procs c).pid ∧ ¬ (0 < pid ∧ (s.procs i).pid ≠ pid)

/-- The first slot at which the loop of `proc_wait_blocking` returns. -/
def waitZombie (s : Sched) (c : Fin maxProcs) (pid : Int) : Option (Fin maxProcs) :=
  (List.finRange maxProcs).find? fun i => waitMatches s c pid i ∧ (s.procs i).state = .zombie

/-- `found` after the loop. -/
def waitFound (s : Sched) (c : Fin maxProcs) (pid : Int) : Bool :=
  (List.finRange maxProcs).any fun i => waitMatches s c pid i ∧ (s.procs i).state ≠ .free

/-- Block, and let another process run. -/
def waitBlock (s : Sched) (c : Fin maxProcs) (pid : Int) : Sched :=
  schedule ((s.setState c .blocked).setWaitTarget c (if 0 < pid then pid else -1))

/-- `proc_wait_blocking`; no value when it switched away and never returns. -/
def procWaitBlocking (k : Kernel) (pid : Int) : Kernel × Option (Int × Option Int) :=
  match k.sched.current with
  | none => (k, some (-1, none))
  | some c =>
    match waitZombie k.sched c pid with
    | some i =>
      let (k, r) := collect k i
      (k, some r)
    | none =>
      if !waitFound k.sched c pid then (k, some (-1, none))
      else
        let s := waitBlock k.sched c pid
        if s.current = some c then
          let (k, r) := procWait { k with sched := s.setWaitTarget c 0 } pid
          (k, some r)
        else ({ k with sched := s }, none)

-- ---------------------------------------------------------------------------
-- System calls
-- ---------------------------------------------------------------------------

def errPerm : Int := -1

def errChild : Int := -10

/-- `WNOHANG` -/
def wnohang : BitVec 32 := 1#32

/-- The first zombie that the loop of `sys_waitpid` over `proc_wait(1)` to
`proc_wait(MAX_PROCS - 1)` reaps. -/
def waitScan (k : Kernel) : List Int → Kernel × Int × Option Int
  | [] => (k, errChild, none)
  | i :: is =>
    let (k, rc, status) := procWait k i
    if 0 < rc then (k, rc, status) else waitScan k is

/-- The end of `sys_waitpid`: `ret`, and what is stored at the user's `status`. -/
def copyStatus (status : BitVec 64) (r : Int × Option Int) : Int × Option Int :=
  if status ≠ 0#64 ∧ 0 < r.1 then
    if wordUserOk status 4#64 then (r.1, some (r.2.getD 0)) else (errBadAddress, none)
  else (r.1, none)

/-- `sys_waitpid`; no value when the call never returns. -/
def sysWaitpid (k : Kernel) (pid : BitVec 64) (status : BitVec 64) (options : BitVec 32) :
    Kernel × Option (Int × Option Int) :=
  let blocking := options &&& wnohang = 0#32
  let pid32 := (pid.setWidth 32).toInt
  if status ≠ 0#64 ∧ !accessOk status 4#64 then (k, some (errBadAddress, none))
  else if 0 < pid.toInt then
    let (k, rc, st) := procWait k pid32
    if 0 < rc then (k, some (copyStatus status (rc, st)))
    else if rc < 0 then (k, some (errChild, none))
    else if ¬ blocking then (k, some (0, none))
    else
      let (k, r) := procWaitBlocking k pid32
      (k, r.map (copyStatus status))
  else
    let (k, ret, st) := waitScan k ((List.range' 1 (maxProcs - 1)).map Int.ofNat)
    if 0 < ret then (k, some (copyStatus status (ret, st)))
    else if ¬ blocking then (k, some (0, none))
    else
      let (k, r) := procWaitBlocking k pid32
      (k, r.map (copyStatus status))

/-- `sys_setuid` -/
def sysSetuid (k : Kernel) (uid : BitVec 32) : Kernel × Int :=
  match k.sched.current with
  | none => (k, errPerm)
  | some c =>
    let p := k.sched.procs c
    if p.uid ≠ 0 ∧ uid.toInt ≠ p.uid then (k, errPerm)
    else ({ k with sched := k.sched.modify c fun p => { p with uid := uid.toInt } }, 0)

end Lestra
