import Mathlib.Algebra.Group.Nat.Defs
import Mathlib.Logic.Function.Basic
import Mathlib.Tactic.Common

/-!
# The process table

`struct process` of `kernel/include/lestra/sched.h` and the table `procs` of
`kernel/sched/scheduler.c`. Pointers to page tables are frame numbers, 0 for
`NULL`; a character array is the list of its characters before the terminator.
-/

namespace Lestra

/-- `PROC_FREE` to `PROC_ZOMBIE`. -/
inductive ProcState where
  | free
  | runnable
  | running
  | blocked
  | zombie
deriving DecidableEq, Repr, Inhabited

def maxProcs : Nat := 32

theorem maxProcs_pos : 0 < maxProcs := by decide

def maxSignals : Nat := 32

def maxFdPerProc : Nat := 128

def prioDefault : Int := 20

structure SigactionEntry where
  saHandler : BitVec 64
  saFlags : BitVec 64
  saMask : BitVec 64
deriving DecidableEq, Repr, Inhabited

/-- `FD_UNUSED` to `FD_PIPE`. -/
inductive FdType where
  | unused
  | special
  | vfs
  | pipe
deriving DecidableEq, Repr, Inhabited

structure FdEntry where
  type : FdType
  resource : Int
  offset : Int
  flags : BitVec 32
deriving DecidableEq, Repr, Inhabited

/-- `struct cpu_state` -/
structure CpuState where
  rax : BitVec 64
  rbx : BitVec 64
  rcx : BitVec 64
  rdx : BitVec 64
  rsi : BitVec 64
  rdi : BitVec 64
  rbp : BitVec 64
  r8 : BitVec 64
  r9 : BitVec 64
  r10 : BitVec 64
  r11 : BitVec 64
  r12 : BitVec 64
  r13 : BitVec 64
  r14 : BitVec 64
  r15 : BitVec 64
  intNo : BitVec 64
  errCode : BitVec 64
  rip : BitVec 64
  cs : BitVec 64
  rflags : BitVec 64
  rsp : BitVec 64
  ss : BitVec 64
  fsBase : BitVec 64
  gsBase : BitVec 64
  kgsBase : BitVec 64
  krsp : BitVec 64
deriving DecidableEq, Repr, Inhabited

/-- What `memset` leaves of it. -/
def zeroState : CpuState :=
  ⟨0, 0, 0, 0, 0, 0, 0, 0, 0, 0, 0, 0, 0, 0, 0, 0, 0, 0, 0, 0, 0, 0, 0, 0, 0, 0⟩

structure Process where
  pid : Int
  state : ProcState
  parentPid : Int
  pml4 : Nat
  savedState : Option CpuState
  kernelStack : Nat
  exitStatus : Int
  name : List UInt8
  sigactions : List SigactionEntry
  signalPending : BitVec 64
  signalBlocked : BitVec 64
  preSignalState : Option CpuState
  inSignalHandler : Bool
  fsBase : BitVec 64
  isLinuxProcess : Int
  exePath : List UInt8
  brk : BitVec 64
  brkBase : BitVec 64
  mmapNextAddr : BitVec 64
  cwd : List UInt8
  root : List UInt8
  umask : BitVec 32
  needsKstackFree : Bool
  stackBottom : BitVec 64
  wakeTick : BitVec 64
  priority : Int
  uid : Int
  gid : Int
  fds : Fin maxFdPerProc → FdEntry
deriving Inhabited

def fdUnused : FdEntry := ⟨.unused, 0, 0, 0⟩

/-- A slot of the table after `memset(p, 0, sizeof(*p))`. -/
def zeroProcess : Process where
  pid := 0
  state := .free
  parentPid := 0
  pml4 := 0
  savedState := none
  kernelStack := 0
  exitStatus := 0
  name := []
  sigactions := List.replicate maxSignals ⟨0, 0, 0⟩
  signalPending := 0
  signalBlocked := 0
  preSignalState := none
  inSignalHandler := false
  fsBase := 0
  isLinuxProcess := 0
  exePath := []
  brk := 0
  brkBase := 0
  mmapNextAddr := 0
  cwd := []
  root := []
  umask := 0
  needsKstackFree := false
  stackBottom := 0
  wakeTick := 0
  priority := 0
  uid := 0
  gid := 0
  fds := fun _ => fdUnused

end Lestra
