import Lestra.Sched.Process

/-!
# The scheduler

`schedule`, the blocking primitives and the wakeups of `kernel/sched/scheduler.c`,
with `signal_kill` of `kernel/exec/signals.c`, which also wakes.

A `schedule()` that switches in direct mode never returns to its caller:
`context_switch` drops the kernel stack of the old process and enters the new one
by `iretq`. So the code after a call of `schedule` runs exactly when `current` is
what it was.
-/

namespace Lestra

/-- The variables of `scheduler.c`. `napping` is the part of a kernel stack that
outlives a timer interrupt: the deadline of a process that halts in `task_sleep`. -/
structure Sched where
  procs : Fin maxProcs → Process
  current : Option (Fin maxProcs)
  nextPid : Int
  schedulerEnabled : Bool
  waitTarget : Fin maxProcs → Int
  napping : Fin maxProcs → Option (BitVec 64)

namespace Sched

def modify (s : Sched) (i : Fin maxProcs) (f : Process → Process) : Sched :=
  { s with procs := Function.update s.procs i (f (s.procs i)) }

def setState (s : Sched) (i : Fin maxProcs) (st : ProcState) : Sched :=
  s.modify i fun p => { p with state := st }

def setWaitTarget (s : Sched) (i : Fin maxProcs) (pid : Int) : Sched :=
  { s with waitTarget := Function.update s.waitTarget i pid }

def setNapping (s : Sched) (i : Fin maxProcs) (deadline : Option (BitVec 64)) : Sched :=
  { s with napping := Function.update s.napping i deadline }

/-- `for (int i = 0; i < MAX_PROCS; i++)` -/
def forProcs (f : Sched → Fin maxProcs → Sched) (s : Sched) : Sched :=
  (List.finRange maxProcs).foldl f s

end Sched

/-- `sched_init` -/
def schedInit : Sched where
  procs := fun _ => zeroProcess
  current := none
  nextPid := 1
  schedulerEnabled := false
  waitTarget := fun _ => 0
  napping := fun _ => none

/-- `sched_find_by_pid_impl` -/
def schedFindByPid (s : Sched) (pid : Int) : Option (Fin maxProcs) :=
  (List.finRange maxProcs).find? fun i => (s.procs i).state ≠ .free ∧ (s.procs i).pid = pid

/-- `proc_getpid` -/
def procGetpid (s : Sched) : Int :=
  match s.current with
  | none => 0
  | some c => (s.procs c).pid

-- ---------------------------------------------------------------------------
-- schedule
-- ---------------------------------------------------------------------------

/-- The slots in the order in which `pick_next` visits them. -/
def scanOrder (current : Option (Fin maxProcs)) : List (Fin maxProcs) :=
  let start := match current with
    | none => 0
    | some c => c.val + 1
  (List.range maxProcs).map fun i => ⟨(start + i) % maxProcs, Nat.mod_lt _ (by decide)⟩

/-- The body of the loop of `pick_next`. -/
def pickBetter (procs : Fin maxProcs → Process) (best : Option (Fin maxProcs))
    (idx : Fin maxProcs) : Option (Fin maxProcs) :=
  if (procs idx).state ≠ .runnable then best
  else
    match best with
    | none => some idx
    | some b => if (procs idx).priority < (procs b).priority then some idx else best

def pickNext (s : Sched) : Option (Fin maxProcs) :=
  (scanOrder s.current).foldl (pickBetter s.procs) none

/-- `prev` gives up the CPU. -/
def preempt (s : Sched) : Sched :=
  match s.current with
  | none => s
  | some prev => if (s.procs prev).state = .running then s.setState prev .runnable else s

/-- `next` takes it. -/
def switchTo (s : Sched) (next : Fin maxProcs) : Sched :=
  Sched.setState { preempt s with current := some next } next .running

def schedule (s : Sched) : Sched :=
  if !s.schedulerEnabled then s
  else
    match pickNext s with
    | none => s
    | some next => if s.current = some next then s else switchTo s next

-- ---------------------------------------------------------------------------
-- Blocking and waking
-- ---------------------------------------------------------------------------

def taskBlock (s : Sched) : Sched :=
  match s.current with
  | none => s
  | some c =>
    let s := schedule (s.setState c .blocked)
    if s.current = some c then
      if (s.procs c).state = .blocked then s.setState c .running else s
    else s

def taskUnblock (s : Sched) (task : Fin maxProcs) : Sched :=
  if (s.procs task).state = .blocked then s.setState task .runnable else s

def taskUnblockPid (s : Sched) (pid : Int) : Sched :=
  match schedFindByPid s pid with
  | none => s
  | some i => taskUnblock s i

/-- One turn of the loop of `task_sleep`, `now` being the clock: the deadline has
passed, or another process runs, or the CPU halts until the next interrupt. -/
def sleepTurn (s : Sched) (c : Fin maxProcs) (now deadline : BitVec 64) : Sched :=
  if 0 ≤ (now - deadline).toInt then
    (s.setNapping c none).modify c fun p => { p with wakeTick := 0#64, state := .running }
  else
    let s := schedule (s.setState c .blocked)
    s.setNapping c (if s.current = some c then some deadline else none)

def taskSleep (s : Sched) (now ms : BitVec 64) : Sched :=
  match s.current with
  | none => s
  | some c =>
    if ms = 0#64 then if s.schedulerEnabled then schedule s else s
    else sleepTurn (s.modify c fun p => { p with wakeTick := now + ms }) c now (now + ms)

/-- The process that halted in `task_sleep` goes on after an interrupt. -/
def sleepResume (s : Sched) (now : BitVec 64) : Sched :=
  match s.current with
  | none => s
  | some c =>
    match s.napping c with
    | none => s
    | some deadline => sleepTurn s c now deadline

/-- The body of the loop of `sched_check_wakeups`. -/
def checkWakeup (now : BitVec 64) (s : Sched) (i : Fin maxProcs) : Sched :=
  if (s.procs i).state ≠ .blocked then s
  else if 0 < s.waitTarget i then
    match schedFindByPid s (s.waitTarget i) with
    | none => s
    | some t =>
      if (s.procs t).state = .zombie then
        (s.setState i .runnable).setWaitTarget i 0
      else s
  else if (s.procs i).wakeTick ≠ 0#64 ∧ 0 ≤ (now - (s.procs i).wakeTick).toInt then
    s.setState i .runnable
  else s

def schedCheckWakeups (s : Sched) (now : BitVec 64) : Sched :=
  s.forProcs (checkWakeup now)

/-- `sched_tick`, what the timer interrupt calls. -/
def schedTick (s : Sched) (now : BitVec 64) : Sched :=
  if s.schedulerEnabled then schedule (schedCheckWakeups s now) else s

-- ---------------------------------------------------------------------------
-- signal_kill
-- ---------------------------------------------------------------------------

def sigBit (sig : Nat) : BitVec 64 := 1#64 <<< sig

/-- Set the pending bit and wake the process if it is blocked. -/
def postSignal (s : Sched) (i : Fin maxProcs) (sig : Nat) : Sched :=
  let s := s.modify i fun p => { p with signalPending := p.signalPending ||| sigBit sig }
  if (s.procs i).state = .blocked then s.setState i .runnable else s

def signalKill (s : Sched) (pid sig : Int) : Sched × Int :=
  if sig < 0 ∨ (maxSignals : Int) ≤ sig then (s, -22)
  else if 0 < pid then
    match schedFindByPid s pid with
    | none => (s, -3)
    | some i => if sig = 0 then (s, 0) else (postSignal s i sig.toNat, 0)
  else
    (s.forProcs fun s i =>
      if (s.procs i).state ≠ .free ∧ (s.procs i).state ≠ .zombie then
        if sig ≠ 0 then postSignal s i sig.toNat else s
      else s, 0)

end Lestra
