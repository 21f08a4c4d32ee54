import Lestra.Exec.AddressSpace
import Lestra.Exec.Files

/-!
# Fork

`proc_fork` of `kernel/sched/scheduler.c` with everything it calls: the search
for a free slot, the new address space and the copy of the parent's user pages.
The outcome of `kmalloc(16384)` is a parameter, and so are the user registers
that `syscall_entry.asm` saved. The kernel is identity mapped while it copies,
so `write_cr3` has no effect on this state.
-/

namespace Lestra

open Word64

/-- The process table, the pipes and the memory. -/
structure Kernel where
  machine : Machine
  bootPml4 : Nat
  sched : Sched
  pipes : PipeTable

-- ---------------------------------------------------------------------------
-- Slots
-- ---------------------------------------------------------------------------

/-- `find_free_proc`. The priority that it resets is overwritten by its callers. -/
def findFreeProc (s : Sched) : Option (Fin maxProcs) :=
  (List.finRange maxProcs).find? fun i => (s.procs i).state = .free

/-- `proc_init_per_process_state` -/
def procInitPerProcessState (p : Process) : Process :=
  { p with
    cwd := [47]
    root := [47]
    brk := 0#64
    brkBase := 0#64
    mmapNextAddr := 0#64
    umask := 0o22#32
    needsKstackFree := false
    priority := prioDefault
    uid := 0
    gid := 0 }

-- ---------------------------------------------------------------------------
-- The copy of the user pages
-- ---------------------------------------------------------------------------

/-- The first loop of `deep_copy_user_pages`: mark the tables of the child used. -/
def markTables (m : Machine) (pml4 : Nat) : Machine :=
  let mem := m.mem
  let p := pmmMarkUsed m.pmm (pml4 * pageSize)
  { m with
    pmm := forEntries (fun p p4 =>
      let e4 := mem pml4 p4
      if !isPresent e4 then p
      else forEntries (fun p p3 =>
        let e3 := mem (frameOf e4) p3
        if !isPresent e3 then p
        else if isHuge e3 then p
        else forEntries (fun p p2 =>
          let e2 := mem (frameOf e3) p2
          if !isPresent e2 then p
          else if isHuge e2 then p
          else pmmMarkUsed p (physOf e2)) (pmmMarkUsed p (physOf e3)))
        (pmmMarkUsed p (physOf e4))) p }

/-- `(p4 << 39) | (p3 << 30) | (p2 << 21) | (p1 << 12)` -/
def userAddr (p4 p3 p2 p1 : Fin 512) : BitVec 64 :=
  BitVec.ofNat 64 p4.val <<< 39 ||| BitVec.ofNat 64 p3.val <<< 30 |||
    BitVec.ofNat 64 p2.val <<< 21 ||| BitVec.ofNat 64 p1.val <<< 12

/-- `(pt[p1] & 0xFFF) | (pt[p1] & 0xFF00000000000000)` -/
def copyFlags (e : BitVec 64) : BitVec 64 := (e &&& 0xFFF#64) ||| (e &&& 0xFF00000000000000#64)

/-- The retry loop: frames between 1 MB and 4 MB, and the child's own PML4, are
not used but stay allocated. -/
def allocCopyFrame (child : Nat) : Nat → Machine → Machine × Nat
  | 0, m => (m, 0)
  | retries + 1, m =>
    let (m, phys) := m.allocPage
    if phys = 0 then (m, 0)
    else if (0x100000 ≤ phys ∧ phys < 0x400000) ∨ phys = child * pageSize then
      allocCopyFrame child retries { m with pmm := pmmMarkUsed m.pmm phys }
    else (m, phys)

/-- The body of the innermost loop: the page at `vaddr` with leaf entry `e`. -/
def copyUserPage (child : Nat) (m : Machine) (vaddr e : BitVec 64) : Machine :=
  if !isPresent e then m
  else if !isUser e then m
  else
    let (m, newPhys) := allocCopyFrame child 8 m
    if newPhys = 0 then m
    else
      let m := m.fillPage newPhys (m.mem (frameOf e))
      vmmMapPage m child vaddr (BitVec.ofNat 64 newPhys) (copyFlags e)

/-- `deep_copy_user_pages` -/
def deepCopyUserPages (m : Machine) (parent child : Nat) : Machine :=
  forEntries (fun m p4 =>
    let e4 := m.mem parent p4
    if !isPresent e4 then m
    else forEntries (fun m p3 =>
      let e3 := m.mem (frameOf e4) p3
      if !isPresent e3 then m
      else if isHuge e3 then m
      else forEntries (fun m p2 =>
        let e2 := m.mem (frameOf e3) p2
        if !isPresent e2 then m
        else if isHuge e2 then m
        else forEntries (fun m p1 =>
          copyUserPage child m (userAddr p4 p3 p2 p1) (m.mem (frameOf e2) p1)) m) m) m)
    (markTables m child)

-- ---------------------------------------------------------------------------
-- proc_fork
-- ---------------------------------------------------------------------------

/-- The state in which the child returns to user mode: of the registers at the system call
`regs` it has those that a call preserves. -/
def childState (regs : CpuState) : CpuState :=
  { zeroState with
    rbx := regs.rbx
    rbp := regs.rbp
    r12 := regs.r12
    r13 := regs.r13
    r14 := regs.r14
    r15 := regs.r15
    rip := regs.rip
    cs := 0x23#64
    rflags := (regs.rflags ||| 0x200#64) &&& ~~~0x3000#64
    rsp := regs.rsp
    ss := 0x1B#64 }

/-- The child before it has an address space: what `proc_fork` copies from `parent`. -/
def inheritState (child parent : Process) (pid : Int) : Process :=
  { child with
    pid := pid
    state := .runnable
    parentPid := parent.pid
    name := parent.name
    cwd := parent.cwd
    root := parent.root
    brk := parent.brk
    brkBase := parent.brkBase
    mmapNextAddr := parent.mmapNextAddr
    umask := parent.umask
    priority := parent.priority
    sigactions := parent.sigactions
    fsBase := parent.fsBase
    exePath := parent.exePath
    isLinuxProcess := parent.isLinuxProcess }

/-- `child->pid = next_pid++` -/
def Sched.bumpPid (s : Sched) : Sched := { s with nextPid := s.nextPid + 1 }

/-- `proc_fork`; `kstack` is what `kmalloc(16384)` returns. -/
def procFork (k : Kernel) (kstack : Nat) (regs : CpuState) : Kernel × Int :=
  match k.sched.current, findFreeProc k.sched with
  | none, _ => (k, -1)
  | some _, none => (k, -1)
  | some cur, some c =>
    let s := k.sched.modify c fun _ => procInitPerProcessState zeroProcess
    let parent := s.procs cur
    let child := inheritState (s.procs c) parent s.nextPid
    let s := s.bumpPid
    let (m, pml4) := createUserAddressSpace k.machine k.bootPml4
    if pml4 = 0 then
      ({ k with machine := m, sched := s.modify c fun _ => { child with state := .free } }, -1)
    else
      let m := deepCopyUserPages m parent.pml4 pml4
      let child := { child with pml4 := pml4, stackBottom := parent.stackBottom }
      if kstack = 0 then
        ({ k with
            machine := vmmDestroyAddressSpace m pml4
            sched := s.modify c fun _ => { child with state := .free } }, -1)
      else
        let child := { child with
          kernelStack := kstack, savedState := some (childState regs), fds := parent.fds }
        ({ k with machine := m, sched := s.modify c fun _ => child }, child.pid)

end Lestra
