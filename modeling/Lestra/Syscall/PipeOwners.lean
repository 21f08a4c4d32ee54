import Lestra.Exec.PipeEnds
import Lestra.Syscall.Descriptors
import Lestra.Syscall.Waitpid

/-!
# Owners of pipe ends

* `Kernel.fdStep` — the calls that duplicate and close descriptors, beside all
  operations on processes
* `PipeEndsLive` — the ends that descriptors refer to are open
* `pipe_ends_live` — this holds in every run in which only the last descriptor of
  an end is ever closed
-/

namespace Lestra

/-- The system calls on descriptors, and the operations on processes. -/
inductive FdOp where
  | proc (op : ProcOp)
  | pipe (userFds : BitVec 64)
  | dup (oldfd : Int)
  | dup2 (oldfd newfd : Int)
  | fcntl (fd cmd : Int) (arg : BitVec 64)
  | close (fd : Int)

namespace Kernel

/-- A system call on the descriptors of the current process. -/
def onFiles (k : Kernel) (f : PipeTable → FdTable → PipeTable × FdTable) : Kernel :=
  match k.sched.current with
  | none => k
  | some c =>
    let (pipes, fds) := f k.pipes (k.sched.procs c).fds
    { k with pipes, sched := k.sched.modify c fun p => { p with fds := fds } }

def fdStep (k : Kernel) : FdOp → Kernel
  | .proc op => k.step op
  | .pipe userFds => k.onFiles fun t fds =>
      let r := sysPipe t fds userFds
      (r.1, r.2.1)
  | .dup oldfd => k.onFiles fun t fds => (t, (sysDup fds oldfd).1)
  | .dup2 oldfd newfd => k.onFiles fun t fds =>
      let r := sysDup2 t fds oldfd newfd
      (r.1, r.2.1)
  | .fcntl fd cmd arg => k.onFiles fun t fds => (t, (sysFcntl fds fd cmd arg).1)
  | .close fd => k.onFiles fun t fds =>
      let r := sysClose t fds fd
      (r.1, r.2.1)

/-- Descriptor `d` of the process in slot `i`. -/
def entry (k : Kernel) (i : Fin maxProcs) (d : Fin maxFdPerProc) : FdEntry :=
  (k.sched.procs i).fds d

end Kernel

/-- An end is only closed, and its pipe only handed out again, when no descriptor of
any process refers to it. -/
structure PipeEndsLive (k : Kernel) : Prop where
  isOpen : ∀ i d pi w, Refers k.pipes (k.entry i d) pi w →
    (k.pipes.pipes pi).endOpen w = true
  kept : ∀ pi, freePipe k.pipes = some pi → ∀ i d w, ¬ Refers k.pipes (k.entry i d) pi w

/-- The pipe descriptors are in order, and those of the processes are among them. -/
structure FilesOk (k : Kernel) : Prop where
  table : TableOk k.sched
  ends : k.pipes.EndsOk
  entry : ∀ i d, EntryOk k.pipes (k.entry i d)

theorem FilesOk.live {k : Kernel} (h : FilesOk k) : PipeEndsLive k := by
  refine ⟨fun i d pi w hr => ((h.entry i d).refers h.ends hr).2, fun pi hpi i d w hr => ?_⟩
  have huse := ((h.entry i d).refers h.ends hr).1
  rw [freePipe_some hpi] at huse
  cases huse

-- ---------------------------------------------------------------------------
-- Descriptors of processes
-- ---------------------------------------------------------------------------

/-- No pipe changed, and every descriptor of a pipe was inherited. -/
structure Inherits (k k' : Kernel) : Prop where
  pipes : k'.pipes = k.pipes
  entry : ∀ i d, (k'.entry i d).type = .pipe → ∃ j, k.entry j d = k'.entry i d

theorem FilesOk.inherits {k k' : Kernel} (h : FilesOk k) (ht : TableOk k'.sched)
    (hi : Inherits k k') : FilesOk k' := by
  refine ⟨ht, by rw [hi.pipes]; exact h.ends, fun i d he => ?_⟩
  obtain ⟨j, hj⟩ := hi.entry i d he
  rw [hi.pipes, ← hj]
  rw [← hj] at he
  exact h.entry j d he

theorem Inherits.of_fds {k k' : Kernel} (hp : k'.pipes = k.pipes)
    (hf : ∀ i, (k'.sched.procs i).fds = (k.sched.procs i).fds) : Inherits k k' :=
  ⟨hp, fun i d _ => ⟨i, congrFun (hf i).symm d⟩⟩

theorem onSched_inherits (k : Kernel) {f : Sched → Sched} (hf : ∀ s, Rescheduled s (f s)) :
    Inherits k (k.onSched f) := .of_fds rfl fun i => ((hf k.sched).alike i).fds

/-- Filling slot `c` with a process whose pipes are those of some process. -/
theorem inherits_spawned {k : Kernel} {c : Fin maxProcs} {p q : Process} {m : Machine}
    (hp : ∀ d, (p.fds d).type = .pipe → ∃ j, k.entry j d = p.fds d) :
    Inherits k { k with
      machine := m, sched := ((k.sched.modify c fun _ => q).bumpPid).modify c fun _ => p } := by
  refine ⟨rfl, fun i d he => ?_⟩
  have hentry : ({ k with machine := m, sched :=
      ((k.sched.modify c fun _ => q).bumpPid).modify c fun _ => p } : Kernel).entry i d =
      if i = c then p.fds d else k.entry i d := by
    unfold Kernel.entry
    by_cases hi : i = c
    · subst hi
      simp
    · simp [hi, Sched.bumpPid]
  rw [hentry] at he ⊢
  split at he
  case isTrue hi =>
    rw [if_pos hi]
    exact hp d he
  case isFalse hi =>
    rw [if_neg hi]
    exact ⟨i, rfl⟩

theorem procFork_inherits (k : Kernel) (kstack : Nat) (regs : CpuState) :
    Inherits k (procFork k kstack regs).1 := by
  unfold procFork
  split
  · exact .of_fds rfl fun _ => rfl
  · exact .of_fds rfl fun _ => rfl
  case h_3 cur c hcur hfind =>
    dsimp only
    split
    · exact inherits_spawned fun d he => by
        simp [inheritState, procInitPerProcessState, zeroProcess, fdUnused] at he
    · split
      · exact inherits_spawned fun d he => by
          simp [inheritState, procInitPerProcessState, zeroProcess, fdUnused] at he
      · refine inherits_spawned fun d he => ?_
        by_cases hc : cur = c
        · subst hc
          simp [procInitPerProcessState, zeroProcess, fdUnused] at he
        · exact ⟨cur, by simp [Kernel.entry, hc]⟩

theorem procCreate_inherits (k : Kernel) (name : List UInt8) (elf : ElfLoad) (kstack : Nat) :
    Inherits k (procCreate k name elf kstack).1 := by
  unfold procCreate
  split
  · exact .of_fds rfl fun _ => rfl
  case h_2 c hfind =>
    dsimp only
    split
    · exact inherits_spawned fun d he => by
        simp [procInitPerProcessState, zeroProcess, fdUnused] at he
    · split
      · exact inherits_spawned fun d he => by
          simp [procInitPerProcessState, zeroProcess, fdUnused] at he
      · refine inherits_spawned fun d he => ?_
        unfold fdTableInit at he
        dsimp only at he
        split at he <;> simp [fdUnused] at he

theorem sysSetuid_inherits (k : Kernel) (uid : BitVec 32) : Inherits k (sysSetuid k uid).1 := by
  unfold sysSetuid
  split
  · exact .of_fds rfl fun _ => rfl
  case h_2 c hc =>
    dsimp only
    split
    · exact .of_fds rfl fun _ => rfl
    · refine .of_fds rfl fun i => ?_
      dsimp only
      exact Sched.modify_field Process.fds (by intro p; rfl) i

-- ---------------------------------------------------------------------------
-- Waiting
-- ---------------------------------------------------------------------------

/-- The pids of the zombies that a wait may reap. -/
def ProcOp.mayReap : ProcOp → Int → Prop
  | .wait pid, child => child = pid
  | .waitBlocking pid, child => 0 < pid → child = pid
  | .waitpid pid _ _, child => 0 < pid.toInt → 0 < intPid pid → child = intPid pid
  | _, _ => False

/-- The descriptors are inherited, or a zombie child with a pid in `pids` was collected. -/
def Collects (k k' : Kernel) (pids : Int → Prop) : Prop :=
  Inherits k k' ∨ ∃ c i, k.sched.current = some c ∧
    (k.sched.procs i).parentPid = (k.sched.procs c).pid ∧ (k.sched.procs i).state = .zombie ∧
    pids (k.sched.procs i).pid ∧ k' = (collect k i).1

theorem Collects.mono {k k' : Kernel} {pids pids' : Int → Prop} (h : Collects k k' pids)
    (hp : ∀ p, pids p → pids' p) : Collects k k' pids' := by
  rcases h with h | ⟨c, i, hc, hchild, hz, hpid, he⟩
  · exact .inl h
  · exact .inr ⟨c, i, hc, hchild, hz, hp _ hpid, he⟩

theorem procWait_collects (k : Kernel) (pid : Int) :
    Collects k (procWait k pid).1 fun child => child = pid := by
  rcases procWait_cases k pid with ⟨r, _, he⟩ | ⟨c, i, hc, hpid, hp, hz, he⟩
  · rw [he]
    exact .inl (.of_fds rfl fun _ => rfl)
  · exact .inr ⟨c, i, hc, hp, hz, hpid, by rw [he]⟩

/-- If the caller is still the current process, nothing else has run. -/
theorem waitBlock_stays {s : Sched} {c : Fin maxProcs} {pid : Int} (hc : s.current = some c)
    (h : (waitBlock s c pid).current = some c) :
    (waitBlock s c pid).procs = (s.setState c .blocked).procs := by
  unfold waitBlock at h ⊢
  rcases schedule_cases ((s.setState c .blocked).setWaitTarget c (if 0 < pid then pid else -1))
    with ⟨he, _⟩ | ⟨next, _, hne, _, he⟩
  · rw [he]
    rfl
  · rw [he, switchTo_current] at h
    exact absurd (hc.trans h.symm) hne

theorem procWaitBlocking_collects (k : Kernel) (pid : Int) :
    Collects k (procWaitBlocking k pid).1 fun child => 0 < pid → child = pid := by
  unfold procWaitBlocking
  cases hc : k.sched.current with
  | none => exact .inl (.of_fds rfl fun _ => rfl)
  | some c =>
    dsimp only
    cases hz : waitZombie k.sched c pid with
    | some i =>
      obtain ⟨hp, hpid, hz⟩ := waitZombie_some hz
      exact .inr ⟨c, i, hc, hp, hz, hpid, rfl⟩
    | none =>
      dsimp only
      split
      · exact .inl (.of_fds rfl fun _ => rfl)
      · have hfds := fun i => ((waitBlock_rescheduled hc pid).alike i).fds
        split
        case isTrue hstay =>
          have hprocs := waitBlock_stays hc hstay
          generalize hk : ({ k with sched := (waitBlock k.sched c pid).setWaitTarget c 0 } :
            Kernel) = k₁
          have hslot : k₁.sched.procs = (k.sched.setState c .blocked).procs := by
            rw [← hk]
            exact hprocs
          rcases procWait_cases k₁ pid with ⟨r, _, he⟩ | ⟨c', i, hc', hpid, hp, hzi, _⟩
          · rw [he, ← hk]
            exact .inl (.of_fds rfl hfds)
          · -- the search found no zombie, and blocking made none
            exfalso
            obtain rfl : c' = c := by
              rw [← hk] at hc'
              exact Option.some.inj (hc'.symm.trans hstay)
            rw [hslot] at hpid hp hzi
            have hne : i ≠ c' := by
              rintro rfl
              simp at hzi
            rw [Sched.setState_ne _ hne] at hpid hp hzi
            have hcp : ((k.sched.setState c' .blocked).procs c').pid = (k.sched.procs c').pid := by
              simp [Sched.setState]
            exact waitZombie_none hz (hp.trans hcp) (fun _ => hpid) hzi
        case isFalse => exact .inl (.of_fds rfl hfds)

theorem sysWaitpid_collects {k : Kernel} (ht : TableOk k.sched) (pid status : BitVec 64)
    (options : BitVec 32) :
    Collects k (sysWaitpid k pid status options).1 fun child =>
      0 < pid.toInt → 0 < intPid pid → child = intPid pid := by
  have hblock : Collects k (procWaitBlocking k (pid.setWidth 32).toInt).1 fun child =>
      0 < pid.toInt → 0 < intPid pid → child = intPid pid :=
    (procWaitBlocking_collects k (pid.setWidth 32).toInt).mono fun p hp _ h => hp h
  have hsame : Collects k k fun child => 0 < pid.toInt → 0 < intPid pid → child = intPid pid :=
    .inl (.of_fds rfl fun _ => rfl)
  unfold sysWaitpid
  dsimp only
  split
  · exact hsame
  · split
    · rcases procWait_cases k (pid.setWidth 32).toInt with
        ⟨r, hr, he⟩ | ⟨c, i, hc, hpid, hp, hz, he⟩
      · rw [he]
        dsimp only
        rw [if_neg (by omega)]
        split
        · exact hsame
        · split
          · exact hsame
          · exact hblock
      · have hpos : 0 < (collect k i).2.1 := ht.pid_pos i (by rw [hz]; decide)
        rw [he, if_pos hpos]
        exact .inr ⟨c, i, hc, hp, hz, fun _ _ => hpid, rfl⟩
    case isFalse hneg =>
      rcases waitScan_cases k (fun p hp => by have := waitPids_mem.mp hp; omega) with
        ⟨r, hr, he⟩ | ⟨c, i, hc, _, hp, hz, he⟩
      · rw [he]
        dsimp only
        rw [if_neg (by omega)]
        split
        · exact hsame
        · exact hblock
      · have hpos : 0 < (collect k i).2.1 := ht.pid_pos i (by rw [hz]; decide)
        rw [he, if_pos hpos]
        exact .inr ⟨c, i, hc, hp, hz, fun h => absurd h hneg, rfl⟩

/-- Operations that do not bury a process hand descriptors on, or collect a zombie. -/
theorem Kernel.step_collects {k : Kernel} (ht : TableOk k.sched) {op : ProcOp}
    (hop : ∀ status, op ≠ .exit status) : Collects k (k.step op) op.mayReap := by
  cases op with
  | exit status => exact absurd rfl (hop status)
  | create name elf kstack => exact .inl (procCreate_inherits k name elf kstack)
  | fork kstack regs => exact .inl (procFork_inherits k kstack regs)
  | setuid uid => exact .inl (sysSetuid_inherits k uid)
  | block => exact .inl (onSched_inherits k taskBlock_rescheduled)
  | unblock task => exact .inl (onSched_inherits k (f := fun s => taskUnblock s task) fun s =>
      (taskUnblock_woken s task).rescheduled)
  | unblockPid pid => exact .inl (onSched_inherits k fun s =>
      (taskUnblockPid_woken s pid).rescheduled)
  | kill pid sig => exact .inl (onSched_inherits k fun s =>
      (signalKill_woken s pid sig).rescheduled)
  | sleep now ms => exact .inl (onSched_inherits k fun s => taskSleep_rescheduled s now ms)
  | sleepResume now => exact .inl (onSched_inherits k fun s => sleepResume_rescheduled s now)
  | wakeups now => exact .inl (onSched_inherits k fun s =>
      (schedCheckWakeups_woken s now).rescheduled)
  | tick now => exact .inl (onSched_inherits k (f := fun s => schedTick s now) fun s =>
      schedTick_rescheduled s now)
  | schedule => exact .inl (onSched_inherits k schedule_rescheduled)
  | wait pid => exact procWait_collects k pid
  | waitBlocking pid => exact procWaitBlocking_collects k pid
  | waitpid pid status options => exact sysWaitpid_collects ht pid status options

-- ---------------------------------------------------------------------------
-- Closing
-- ---------------------------------------------------------------------------

/-- No other process has a descriptor of a pipe end that the process in slot `c` has. -/
def SoleHolder (k : Kernel) (c : Fin maxProcs) : Prop :=
  ∀ i d' d, i ≠ c → ¬ SharesPipe (k.entry i d') (k.entry c d)

/-- No other descriptor of any process is of the same pipe end as descriptor `d` of slot `c`. -/
def SoleOwner (k : Kernel) (c : Fin maxProcs) (d : Fin maxFdPerProc) : Prop :=
  ∀ i d', (i, d') ≠ (c, d) → ¬ SharesPipe (k.entry i d') (k.entry c d)

/-- A pipe end is only closed through its last descriptor. -/
def ClosesLast (k : Kernel) : FdOp → Prop
  | .close fd => ∀ c d, k.sched.current = some c → fdIndex fd = some d → SoleOwner k c d
  | .dup2 oldfd newfd => ∀ c o d, k.sched.current = some c → fdIndex oldfd = some o →
      fdIndex newfd = some d → o ≠ d → (k.entry c o).type ≠ .unused → SoleOwner k c d
  | .proc (.exit _) => ∀ c, k.sched.current = some c → SoleHolder k c
  | .proc op => ∀ c i, k.sched.current = some c →
      (k.sched.procs i).parentPid = (k.sched.procs c).pid → (k.sched.procs i).state = .zombie →
      op.mayReap (k.sched.procs i).pid → SoleHolder k i
  | _ => True

namespace FilesOk

variable {k k' : Kernel} {c : Fin maxProcs}

/-- Slot `i` closes all its descriptors. -/
theorem closeAll {i : Fin maxProcs} (h : FilesOk k) (ht : TableOk k'.sched)
    (hpipes : k'.pipes = (fdTableCloseAll k.pipes (k.sched.procs i).fds).1)
    (hself : ∀ d, (k'.entry i d).type = .unused)
    (hother : ∀ j d, j ≠ i → k'.entry j d = k.entry j d) (hsole : SoleHolder k i) :
    FilesOk k' := by
  refine ⟨ht, by rw [hpipes]; exact fdTableCloseAll_endsOk h.ends _, fun j d => ?_⟩
  by_cases hj : j = i
  · rw [hj]
    exact entryOk_of_type (by rw [hself]; decide)
  · rw [hpipes, hother j d hj]
    exact (h.entry j d).closeAll h.ends fun d' => hsole j d d' hj

theorem collect {i : Fin maxProcs} (h : FilesOk k) (hc : k.sched.current = some c)
    (hp : (k.sched.procs i).parentPid = (k.sched.procs c).pid)
    (hz : (k.sched.procs i).state = .zombie) (hsole : SoleHolder k i) :
    FilesOk (collect k i).1 := by
  refine h.closeAll (i := i) (h.table.reaped (collect_reaped hc hp hz)) rfl (fun d => ?_)
    (fun j d hj => ?_) hsole
  · have hfds : (Lestra.collect k i).1.entry i d =
        (fdTableCloseAll k.pipes (k.sched.procs i).fds).2 d := by
      simp [Kernel.entry, Lestra.collect, procReap, Sched.setState]
    rw [hfds]
    exact fdTableCloseAll_unused ..
  · simp [Kernel.entry, Lestra.collect, procReap, hj]

theorem exit (h : FilesOk k) (hc : k.sched.current = some c) (status : Int)
    (hsole : SoleHolder k c) : FilesOk (procExit k status) := by
  have ht : TableOk (procExit k status).sched := k.step_tableOk h.table (.exit status)
  have hfds : ∀ j, ((procExit k status).sched.procs j).fds =
      if j = c then (fdTableCloseAll k.pipes (k.sched.procs c).fds).2
      else (k.sched.procs j).fds := by
    intro j
    unfold procExit
    rw [hc]
    dsimp only
    rw [((schedule_rescheduled _).alike j).fds, buryProcess_fds]
    by_cases hj : j = c
    · subst hj
      simp
    · simp [hj]
  refine h.closeAll (i := c) ht (by unfold procExit; rw [hc]) (fun d => ?_) (fun j d hj => ?_) hsole
  · rw [Kernel.entry, hfds, if_pos rfl]
    exact fdTableCloseAll_unused ..
  · rw [Kernel.entry, hfds, if_neg hj]
    rfl

/-- A call that leaves the descriptors of the other processes in use. -/
theorem onFiles {f : PipeTable → FdTable → PipeTable × FdTable} (h : FilesOk k)
    (hf : ∀ c, k.sched.current = some c → (f k.pipes (k.sched.procs c).fds).1.EndsOk ∧
      (∀ d, EntryOk (f k.pipes (k.sched.procs c).fds).1 ((f k.pipes (k.sched.procs c).fds).2 d)) ∧
      ∀ i d, i ≠ c → EntryOk (f k.pipes (k.sched.procs c).fds).1 (k.entry i d)) :
    FilesOk (k.onFiles f) := by
  obtain ⟨c, hc, _⟩ := h.table.current
  obtain ⟨hends, hself, hother⟩ := hf c hc
  have ht : TableOk (k.sched.modify c fun p =>
      { p with fds := (f k.pipes (k.sched.procs c).fds).2 }) :=
    h.table.modify (fun _ => rfl) (fun _ => rfl) (fun _ => rfl)
  unfold Kernel.onFiles
  rw [hc]
  refine ⟨ht, hends, fun i d => ?_⟩
  by_cases hi : i = c
  · subst hi
    simpa [Kernel.entry] using hself d
  · simpa [Kernel.entry, hi] using hother i d hi

/-- A call that copies descriptors, and changes at most their flags and offsets. -/
theorem onFiles_copy {f : FdTable → FdTable} (h : FilesOk k)
    (hf : ∀ fds d, ∃ d', (f fds d).type = (fds d').type ∧
      (f fds d).resource = (fds d').resource) :
    FilesOk (k.onFiles fun t fds => (t, f fds)) := by
  refine h.onFiles fun c _ => ⟨h.ends, fun d he => ?_, fun i d _ => h.entry i d⟩
  obtain ⟨d', htype, hres⟩ := hf (k.sched.procs c).fds d
  rw [htype] at he
  rw [hres]
  exact h.entry c d' he

end FilesOk

/-- Storing a copy of the entry `o` at `n`. -/
theorem update_copies {fds : FdTable} {o n : Fin maxFdPerProc} {e : FdEntry}
    (htype : e.type = (fds o).type) (hres : e.resource = (fds o).resource) (d : Fin maxFdPerProc) :
    ∃ d', (Function.update fds n e d).type = (fds d').type ∧
      (Function.update fds n e d).resource = (fds d').resource := by
  by_cases hd : d = n
  · subst hd
    exact ⟨o, by rw [Function.update_self, htype], by rw [Function.update_self, hres]⟩
  · exact ⟨d, by rw [Function.update_of_ne hd], by rw [Function.update_of_ne hd]⟩

theorem sysDup_copies (oldfd : Int) (fds : FdTable) (d : Fin maxFdPerProc) :
    ∃ d', ((sysDup fds oldfd).1 d).type = (fds d').type ∧
      ((sysDup fds oldfd).1 d).resource = (fds d').resource := by
  unfold sysDup
  split
  · exact ⟨d, rfl, rfl⟩
  case h_2 o _ =>
    split
    · exact ⟨d, rfl, rfl⟩
    · split
      · exact ⟨d, rfl, rfl⟩
      · refine update_copies (o := o) ?_ ?_ d <;> rfl

theorem sysFcntl_copies (fd cmd : Int) (arg : BitVec 64) (fds : FdTable) (d : Fin maxFdPerProc) :
    ∃ d', ((sysFcntl fds fd cmd arg).1 d).type = (fds d').type ∧
      ((sysFcntl fds fd cmd arg).1 d).resource = (fds d').resource := by
  unfold sysFcntl
  split
  · exact ⟨d, rfl, rfl⟩
  case h_2 i _ =>
    dsimp only
    split
    · exact ⟨d, rfl, rfl⟩
    · split
      · split
        · exact ⟨d, rfl, rfl⟩
        · split
          · exact ⟨d, rfl, rfl⟩
          · refine update_copies (o := i) ?_ ?_ d <;> rfl
      · split
        · exact ⟨d, rfl, rfl⟩
        · split
          · refine update_copies (o := i) ?_ ?_ d <;> rfl
          · split
            · exact ⟨d, rfl, rfl⟩
            · split
              · refine update_copies (o := i) ?_ ?_ d <;> rfl
              · exact ⟨d, rfl, rfl⟩

-- ---------------------------------------------------------------------------
-- The calls
-- ---------------------------------------------------------------------------

namespace FilesOk

variable {k : Kernel}

theorem sysPipe (h : FilesOk k) (userFds : BitVec 64) :
    FilesOk (k.fdStep (.pipe userFds)) := by
  show FilesOk (k.onFiles fun t fds => ((Lestra.sysPipe t fds userFds).1, (Lestra.sysPipe t fds userFds).2.1))
  refine h.onFiles fun c _ => ?_
  have hentry : ∀ d, EntryOk k.pipes ((k.sched.procs c).fds d) := h.entry c
  generalize (k.sched.procs c).fds = fds at hentry
  unfold Lestra.sysPipe
  split
  · exact ⟨h.ends, hentry, fun i d _ => h.entry i d⟩
  · split
    case h_1 r w l _ =>
      rcases pipeCreate_cases h.ends with ⟨he, hends, hkeep⟩ | ⟨rf, wf, he, hends, hr, hw, hkeep⟩
      · generalize pipeCreate k.pipes = p at he hends hkeep
        obtain ⟨t, o⟩ := p
        obtain rfl : o = none := he
        exact ⟨hends, fun d => (hentry d).mono hkeep, fun i d _ => (h.entry i d).mono hkeep⟩
      · generalize pipeCreate k.pipes = p at he hends hr hw hkeep
        obtain ⟨t, o⟩ := p
        obtain rfl : o = some (pipeFdOf rf, pipeFdOf wf) := he
        refine ⟨hends, fun d => ?_, fun i d _ => (h.entry i d).mono hkeep⟩
        by_cases hd : d = w
        · subst hd
          dsimp only
          rw [Function.update_self]
          exact fun _ => ⟨wf, rfl, hw⟩
        · dsimp only
          rw [Function.update_of_ne hd]
          by_cases hd' : d = r
          · subst hd'
            rw [Function.update_self]
            exact fun _ => ⟨rf, rfl, hr⟩
          · rw [Function.update_of_ne hd']
            exact (hentry d).mono hkeep
    case h_2 => exact ⟨h.ends, hentry, fun i d _ => h.entry i d⟩

/-- Closing descriptor `n` of the current process and storing `e` there. -/
theorem replace {c : Fin maxProcs} {n : Fin maxFdPerProc} {e : FdEntry} (h : FilesOk k)
    (hsole : SoleOwner k c n)
    (he : EntryOk (closeResource k.pipes (k.entry c n)) e) :
    (closeResource k.pipes (k.entry c n)).EndsOk ∧
      (∀ d, EntryOk (closeResource k.pipes (k.entry c n))
        (Function.update (k.sched.procs c).fds n e d)) ∧
      ∀ i d, i ≠ c → EntryOk (closeResource k.pipes (k.entry c n)) (k.entry i d) := by
  refine ⟨closeResource_endsOk h.ends _, fun d => ?_, fun i d hi => ?_⟩
  · by_cases hd : d = n
    · subst hd
      rw [Function.update_self]
      exact he
    · rw [Function.update_of_ne hd]
      exact (h.entry c d).closeResource (hsole c d fun heq => hd (congrArg Prod.snd heq))
  · exact (h.entry i d).closeResource (hsole i d fun heq => hi (congrArg Prod.fst heq))

theorem sysClose (h : FilesOk k) {fd : Int} (hok : ClosesLast k (.close fd)) :
    FilesOk (k.fdStep (.close fd)) := by
  show FilesOk (k.onFiles fun t fds => ((Lestra.sysClose t fds fd).1, (Lestra.sysClose t fds fd).2.1))
  refine h.onFiles fun c hc => ?_
  unfold Lestra.sysClose
  cases hfd : fdIndex fd with
  | none => exact ⟨h.ends, h.entry c, fun i d _ => h.entry i d⟩
  | some n =>
    dsimp only
    split
    · exact ⟨h.ends, h.entry c, fun i d _ => h.entry i d⟩
    · exact h.replace (hok c n hc hfd) (entryOk_of_type (by decide))

theorem sysDup2 (h : FilesOk k) {oldfd newfd : Int} (hok : ClosesLast k (.dup2 oldfd newfd)) :
    FilesOk (k.fdStep (.dup2 oldfd newfd)) := by
  show FilesOk (k.onFiles fun t fds => ((Lestra.sysDup2 t fds oldfd newfd).1, (Lestra.sysDup2 t fds oldfd newfd).2.1))
  refine h.onFiles fun c hc => ?_
  unfold Lestra.sysDup2
  cases hold : fdIndex oldfd with
  | none => exact ⟨h.ends, h.entry c, fun i d _ => h.entry i d⟩
  | some o =>
    cases hnew : fdIndex newfd with
    | none => exact ⟨h.ends, h.entry c, fun i d _ => h.entry i d⟩
    | some n =>
      dsimp only
      by_cases heq : o = n
      · rw [if_pos heq]
        split
        · exact ⟨h.ends, h.entry c, fun i d _ => h.entry i d⟩
        · exact ⟨h.ends, h.entry c, fun i d _ => h.entry i d⟩
      · rw [if_neg heq]
        split
        · exact ⟨h.ends, h.entry c, fun i d _ => h.entry i d⟩
        case isFalse hopen =>
          have hsole := hok c o n hc hold hnew heq hopen
          refine h.replace hsole ((h.entry c o).closeResource (hsole c o fun he => ?_))
          exact heq (congrArg Prod.snd he)

theorem proc (h : FilesOk k) {op : ProcOp} (hok : ClosesLast k (.proc op)) :
    FilesOk (k.fdStep (.proc op)) := by
  by_cases hexit : ∃ status, op = .exit status
  · obtain ⟨status, rfl⟩ := hexit
    obtain ⟨c, hc, _⟩ := h.table.current
    exact h.exit hc status (hok c hc)
  · have hne : ∀ status, op ≠ .exit status := fun status he => hexit ⟨status, he⟩
    rcases Kernel.step_collects h.table hne with hi | ⟨c, i, hc, hp, hz, hpid, he⟩
    · exact h.inherits (k.step_tableOk h.table op) hi
    · have hsole : SoleHolder k i := by
        cases op with
        | exit status => exact absurd rfl (hne status)
        | _ => exact hok c i hc hp hz hpid
      show FilesOk (k.step op)
      rw [he]
      exact h.collect hc hp hz hsole

theorem step (h : FilesOk k) {op : FdOp} (hok : ClosesLast k op) : FilesOk (k.fdStep op) := by
  cases op with
  | proc op => exact h.proc hok
  | pipe userFds => exact h.sysPipe userFds
  | dup oldfd => exact h.onFiles_copy (sysDup_copies oldfd)
  | dup2 oldfd newfd => exact h.sysDup2 hok
  | fcntl fd cmd arg => exact h.onFiles_copy (sysFcntl_copies fd cmd arg)
  | close fd => exact h.sysClose hok

end FilesOk

-- ---------------------------------------------------------------------------
-- Runs
-- ---------------------------------------------------------------------------

/-- Init starts without pipes. -/
theorem Started.entry_type {k : Kernel} (hk : Started k) (i : Fin maxProcs)
    (d : Fin maxFdPerProc) : (k.entry i d).type ≠ .pipe := by
  obtain ⟨k₀, name, elf, kstack, stack, h₀, hs⟩ := hk
  have hnew : ((procCreate k₀ name elf kstack).1.entry i d).type ≠ .pipe := by
    intro he
    obtain ⟨j, hj⟩ := (procCreate_inherits k₀ name elf kstack).entry i d he
    rw [← hj, Kernel.entry, h₀] at he
    simp [schedInit, zeroProcess, fdUnused] at he
  unfold schedStartFirst at hs
  generalize procCreate k₀ name elf kstack = r at hs hnew
  dsimp only at hs
  split at hs
  · cases hs
  · split at hs
    · cases hs
    case h_2 j _ =>
      obtain rfl := Option.some.inj hs
      unfold Kernel.entry at hnew ⊢
      by_cases hi : i = j
      · subst hi
        simpa using hnew
      · simpa [hi] using hnew

theorem Started.filesOk {k : Kernel} (hk : Started k) (hpipes : k.pipes = pipeInit) :
    FilesOk k := by
  obtain ⟨c, hc⟩ := hk.initAlone
  exact ⟨hc.tableOk, by rw [hpipes]; exact pipeInit_endsOk,
    fun i d => entryOk_of_type (hk.entry_type i d)⟩

/-- **Pipe ends live as long as their descriptors** in every run in which an end is
only closed through its last descriptor. -/
theorem pipe_ends_live {k : Kernel} (hk : Started k) (hpipes : k.pipes = pipeInit)
    (ops : List FdOp) (hops : Run.Allowed Kernel.fdStep ClosesLast k ops) :
    PipeEndsLive (Run.run Kernel.fdStep k ops) :=
  (Run.inv_run (I := FilesOk) (fun _ _ h hok => h.step hok) ops k (hk.filesOk hpipes) hops).live

/-- A call on the files of the current process leaves those of the others. -/
theorem onFiles_entry_ne {k : Kernel} {c i : Fin maxProcs} (hc : k.sched.current = some c)
    (hi : i ≠ c) (f : PipeTable → FdTable → PipeTable × FdTable) (d : Fin maxFdPerProc) :
    (k.onFiles f).entry i d = k.entry i d := by
  simp only [Kernel.onFiles, hc, Kernel.entry, Sched.modify, Function.update_of_ne hi]

/-- Init makes a pipe and closes its read end. -/
theorem pipe_ends_live_close :
    PipeEndsLive (Run.run Kernel.fdStep initKernel [.pipe 0x500000#64, .close 3]) := by
  have hcurrent : (initKernel.fdStep (.pipe 0x500000#64)).sched.current = some ⟨0, by decide⟩ := by
    decide +kernel
  have hthree : fdIndex 3 = some ⟨3, by decide⟩ := by decide
  have hown : ∀ d' : Fin maxFdPerProc, d' ≠ ⟨3, by decide⟩ →
      ¬ SharesPipe ((initKernel.fdStep (.pipe 0x500000#64)).entry ⟨0, by decide⟩ d')
        ((initKernel.fdStep (.pipe 0x500000#64)).entry ⟨0, by decide⟩ ⟨3, by decide⟩) := by
    unfold SharesPipe
    decide +kernel
  have hclose : ClosesLast (initKernel.fdStep (.pipe 0x500000#64)) (.close 3) := by
    intro c d hc hd i d' hne hshares
    obtain rfl := Option.some.inj (hcurrent.symm.trans hc)
    obtain rfl := Option.some.inj (hthree.symm.trans hd)
    by_cases hi : i = ⟨0, by decide⟩
    · subst hi
      exact hown d' (fun heq => hne (by rw [heq])) hshares
    · -- the other processes have no pipes
      have hinit : initKernel.sched.current = some ⟨0, by decide⟩ := by decide +kernel
      have hentry := onFiles_entry_ne hinit hi (fun t fds =>
        ((sysPipe t fds 0x500000#64).1, (sysPipe t fds 0x500000#64).2.1)) d'
      exact initKernel_started.entry_type i d' ((congrArg FdEntry.type hentry).symm.trans hshares.1)
  exact pipe_ends_live initKernel_started rfl _ ⟨trivial, hclose, trivial⟩

/-- Init makes a pipe, forks and closes its read end: the child loses it as well. -/
theorem close_after_fork_kills_end :
    ¬ PipeEndsLive (Run.run Kernel.fdStep initKernel
      [.pipe 0x500000#64, .proc (.fork 0x5000 default), .close 3]) := by
  intro h
  have hopen := h.isOpen ⟨1, by decide⟩ ⟨3, by decide⟩ ⟨0, by decide⟩ false
    ⟨by decide +kernel, ⟨0, by decide⟩, by decide +kernel, by decide +kernel, by decide +kernel⟩
  revert hopen
  decide +kernel

end Lestra
